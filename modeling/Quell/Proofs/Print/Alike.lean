import Quell.Proofs.Annotate.Ways
import Quell.Proofs.Print.Strokes

/-!
Documents that are alike print alike.

The strokes of two documents that are alike are the same, but for the order of rules in their
comments (`Document.Alike.strokes`), and so are the pieces of their pages and the printed texts:
`Document.Alike.print`.
-/
namespace Quell

open Text

def Reworded (t t' : Text) : Prop :=
  t' = t ∨ ∃ (d d' : Directive) (kind : CommentKind) (a b : Text), d.Alike d' ∧
    t = a ++ d.encode kind ++ b ∧ t' = a ++ d'.encode kind ++ b ∧ Firm t ∧ Firm t'

theorem Comment.Alike.render {c c' : Comment} (alike : c.Alike c') :
    Reworded c.render c'.render := by
  rcases alike with rfl | ⟨d, d', clean, clean', alike, text, rfl⟩
  · exact .inl rfl
  · refine .inr ?_
    unfold Comment.render
    rw [text]
    cases kind : c.kind with
    | line =>
      refine ⟨d, d', .line, ['/', '/'], [], alike, (List.append_nil _).symm, (List.append_nil _).symm, ?_, ?_⟩
      · exact Firm.append ['/', '/'] clean.firm
      · exact Firm.append ['/', '/'] clean'.firm
    | block =>
      refine ⟨d, d', .block, ['/', '*'], ['*', '/'], alike, rfl, rfl, ?_, ?_⟩
      · exact Firm.append ('/' :: '*' :: d.encode .block) ⟨'/', rfl, by decide⟩
      · exact Firm.append ('/' :: '*' :: d'.encode .block) ⟨'/', rfl, by decide⟩

theorem Comment.Alike.asBlock {c c' : Comment} (alike : c.Alike c') (line : c.kind = .line) :
    Reworded (" /*".toList ++ c.text.trimEnd ++ " */".toList)
      (" /*".toList ++ c'.text.trimEnd ++ " */".toList) := by
  rcases alike with rfl | ⟨d, d', clean, clean', alike, text, rfl⟩
  · exact .inl rfl
  · dsimp only
    rw [line] at text ⊢
    rw [text, clean.firm.trimEnd_eq, clean'.firm.trimEnd_eq]
    exact .inr ⟨d, d', .line, _, _, alike, rfl, rfl, Firm.append _ ⟨'/', by decide, by decide⟩,
      Firm.append _ ⟨'/', by decide, by decide⟩⟩

structure Piece.Alike (p p' : Piece) : Prop where
  origin : p'.origin = p.origin
  text : Reworded p.text p'.text

structure Revision.Alike (r r' : Revision) : Prop where
  lo : r'.lo = r.lo
  hi : r'.hi = r.hi
  text : Reworded r.text r'.text

structure Page.Alike (page page' : Page) : Prop where
  pos : page'.pos = page.pos
  pieces : List.Forall₂ Piece.Alike page.pieces page'.pieces

theorem Piece.Alike.refl (p : Piece) : p.Alike p := ⟨rfl, .inl rfl⟩

theorem Firm.dropWhile_eq {t : Text} (firm : Firm t) :
    t.reverse.dropWhile Page.isSpaceOrTab = t.reverse ∧ t.reverse ≠ [] := by
  obtain ⟨c, last, solid⟩ := firm
  obtain ⟨front, rfl⟩ := List.getLast?_eq_some_iff.mp last
  rw [List.reverse_append, List.reverse_singleton, List.singleton_append]
  refine ⟨List.dropWhile_cons_of_neg fun h => ?_, List.cons_ne_nil _ _⟩
  rw [isBlank_of_isSpaceOrTab h] at solid
  cases solid

theorem Page.stripEnd_alike {ps ps' : List Piece} (h : List.Forall₂ Piece.Alike ps ps') :
    List.Forall₂ Piece.Alike (stripEnd ps) (stripEnd ps') := by
  have firm : ∀ (p : Piece) (ps : List Piece), Firm p.text → stripEnd (p :: ps) = p :: ps := by
    intro p ps hp
    obtain ⟨same, nonempty⟩ := hp.dropWhile_eq
    unfold stripEnd
    rw [same]
    split
    · rename_i nil
      exact absurd nil nonempty
    · rw [List.reverse_reverse]
  induction h with
  | nil => exact .nil
  | @cons p p' ps ps' head tail ih =>
    rcases head.text with same | ⟨d, d', kind, a, b, -, -, -, hp, hp'⟩
    · unfold stripEnd
      rw [same]
      split
      · exact .cons ⟨head.origin, .inl rfl⟩ ih
      · exact .cons ⟨head.origin, .inl rfl⟩ tail
    · rw [firm p ps hp, firm p' ps' hp']
      exact .cons head tail

namespace Page.Alike

variable {page page' : Page}

theorem add (alike : page.Alike page') {t t' : Text} (h : Reworded t t') :
    (page.add t).Alike (page'.add t') :=
  ⟨alike.pos, .cons ⟨rfl, h⟩ alike.pieces⟩

theorem trimEnd (alike : page.Alike page') : page.trimEnd.Alike page'.trimEnd :=
  ⟨alike.pos, stripEnd_alike alike.pieces⟩

end Page.Alike

inductive Stroke.Alike : Stroke → Stroke → Prop where
  | start (lo : Nat) {cs ds : List Comment} : List.Forall₂ Comment.Alike cs ds →
      Alike (.start lo cs) (.start lo ds)
  | reach (target : Nat) : Alike (.reach target) (.reach target)
  | inside (opened : Option Nat) (ends : List Nat) : Alike (.inside opened ends) (.inside opened ends)
  | behind (anchor : Option Nat) (margin : Margin) {cs ds : List Comment} :
      List.Forall₂ Comment.Alike cs ds → Alike (.behind anchor margin cs) (.behind anchor margin ds)
  | put {t t' : Text} : Reworded t t' → Alike (.put t) (.put t')

theorem Stroke.Alike.refl : ∀ s : Stroke, s.Alike s
  | .start lo cs => .start lo (Node.forall₂_refl cs)
  | .reach target => .reach target
  | .inside opened ends => .inside opened ends
  | .behind anchor margin cs => .behind anchor margin (Node.forall₂_refl cs)
  | .put _ => .put (.inl rfl)

namespace Press

variable {doc doc' : Document} {source : Text} {page page' : Page}

section Perform

variable (eol : doc'.eol = doc.eol)
variable (revisions : List.Forall₂ Revision.Alike (revisionsOf doc) (revisionsOf doc'))

theorem copyTo_alike (h : page.Alike page') (target : Nat) :
    Both Page.Alike ((Press.of doc source).copyTo page target)
      ((Press.of doc' source).copyTo page' target) := by
  unfold copyTo
  rw [h.pos]
  exact .bind_same _ fun t => .ok ⟨rfl, .cons (.refl _) h.pieces⟩

theorem copyRevision_alike (h : page.Alike page') {r r' : Revision} (alike : r.Alike r') :
    Both Page.Alike ((Press.of doc source).copyRevision page r)
      ((Press.of doc' source).copyRevision page' r') := by
  unfold copyRevision
  rw [alike.lo, alike.hi]
  exact (copyTo_alike h r.lo).bind fun a b k => .ok ⟨rfl, .cons ⟨rfl, alike.text⟩ k.pieces⟩

include revisions

theorem flushTo_alike (h : page.Alike page') (target : Nat) :
    Both Page.Alike ((Press.of doc source).flushTo page target)
      ((Press.of doc' source).flushTo page' target) := by
  have step : ∀ a b c d, a.Alike b → c.Alike d →
      Both Page.Alike ((Press.of doc source).copyRevision a c)
        ((Press.of doc' source).copyRevision b d) := fun _ _ _ _ ha hc => copyRevision_alike ha hc
  unfold flushTo
  rw [h.pos]
  change Both _ (if min target source.bytes ≤ page.pos then _ else _)
    (if min target source.bytes ≤ page.pos then _ else _)
  split
  · exact .ok h
  · refine (Both.foldlM step ?_ h).bind fun a b k => copyTo_alike k _
    refine List.rel_filter (fun r r' alike => ?_) revisions
    dsimp only
    rw [alike.lo, alike.hi]
    exact Iff.rfl

omit revisions
include eol

theorem lead_alike (h : page.Alike page') (lo : Nat) {cs ds : List Comment}
    (alike : List.Forall₂ Comment.Alike cs ds) :
    Both Page.Alike ((Press.of doc source).lead page lo cs)
      ((Press.of doc' source).lead page' lo ds) := by
  have line : (Press.of doc' source).eol = (Press.of doc source).eol := congrArg LineEnding.text eol
  have all := alike
  cases alike with
  | nil => exact .ok h
  | cons head tail =>
    unfold lead
    rw [line]
    refine .bind_same _ fun indent => .bind_same _ fun first => .ok ?_
    refine List.rel_foldl (fun a b k c d alike => ?_) ?_ all
    · exact ((k.add alike.render).add (.inl rfl)).add (.inl rfl)
    · split
      · exact h
      · exact (h.trimEnd.add (.inl rfl)).add (.inl rfl)

theorem emitTrailingComment_alike (h : page.Alike page') (indent : Text) {c c' : Comment}
    (alike : c.Alike c') :
    Both Page.Alike ((Press.of doc source).emitTrailingComment indent page c)
      ((Press.of doc' source).emitTrailingComment indent page' c') := by
  have line : (Press.of doc' source).eol = (Press.of doc source).eol := congrArg LineEnding.text eol
  have follows : (Press.of doc' source).codeFollows page' = (Press.of doc source).codeFollows page := by
    unfold codeFollows
    rw [h.pos]
    rfl
  unfold emitTrailingComment
  obtain ⟨kind, placement, -⟩ := alike.same
  rw [follows, kind, placement, line]
  refine .bind_same _ fun follows => ?_
  dsimp only
  split
  · have put := ((h.add (t := (Press.of doc source).eol) (.inl rfl)).add (t := indent)
      (.inl rfl)).add alike.render
    split
    · rw [put.pos]
      exact .bind_same _ fun resume => .ok ((put.add (.inl rfl)).add (.inl rfl))
    · exact .ok put
  · split
    next cuts =>
      rw [Bool.and_eq_true, beq_iff_eq] at cuts
      exact .ok (h.add (alike.asBlock cuts.2))
    next => exact .ok ((h.add (.inl rfl)).add alike.render)

include revisions

theorem perform_alike (h : page.Alike page') {s s' : Stroke} (alike : s.Alike s') :
    Both Page.Alike ((Press.of doc source).perform page s)
      ((Press.of doc' source).perform page' s') := by
  have trailing : ∀ {page page' : Page} (margin : Margin) {cs ds : List Comment}, page.Alike page' →
      List.Forall₂ Comment.Alike cs ds →
      Both Page.Alike ((Press.of doc source).marginText margin >>= fun indent =>
          cs.foldlM ((Press.of doc source).emitTrailingComment indent) page)
        ((Press.of doc' source).marginText margin >>= fun indent =>
          ds.foldlM ((Press.of doc' source).emitTrailingComment indent) page') := by
    intro page page' margin cs ds h alike
    refine .bind_same _ fun indent => Both.foldlM (fun a b c d k kc => ?_) alike h
    exact emitTrailingComment_alike eol k indent kc
  cases alike with
  | start lo alike =>
    exact (flushTo_alike revisions h lo).bind fun a b k => lead_alike eol k lo alike
  | reach target => exact flushTo_alike revisions h target
  | inside opened ends =>
    unfold perform
    rw [h.pos]
    exact flushTo_alike revisions h _
  | behind anchor margin alike =>
    cases anchor with
    | none => exact trailing margin h alike
    | some offset =>
      exact (flushTo_alike revisions h offset).bind fun a b k => trailing margin k alike
  | put reworded => exact .ok (h.add reworded)

end Perform

end Press

namespace Document

variable {doc doc' : Document} {first : Nat} {f : NodeId → NodeId} {α : Type} {S : α → α → Prop}

structure Kin (f : NodeId → NodeId) (S : α → α → Prop) (a b : NodeId × List α) : Prop where
  id : b.1 = f a.1
  gathered : List.Forall₂ S a.2 b.2

/-- Folds over documents that are alike go together if their steps do. -/
theorem Alike.fold (alike : Alike first f doc doc')
    {alg alg' : NodeId → List (NodeId × List α) → List α}
    (step : ∀ id kids kids', List.Forall₂ (Kin f S) kids kids' →
      List.Forall₂ S (alg id kids) (alg' (f id) kids')) (fuel : Nat) (id : NodeId) :
    List.Forall₂ S (doc.fold alg fuel id) (doc'.fold alg' fuel (f id)) := by
  induction fuel generalizing id with
  | zero => exact .nil
  | succ fuel ih =>
    have children : doc'.children (f id) = (doc.children id).map f := (alike.node id).children
    rw [Document.fold, Document.fold, children, List.map_map]
    refine step id _ _ ?_
    rw [List.forall₂_map_left_iff, List.forall₂_map_right_iff]
    exact List.forall₂_same.mpr fun c _ => ⟨rfl, ih c⟩

theorem Alike.gather (alike : Alike first f doc doc') (positive : 0 < first)
    {alg alg' : NodeId → List (NodeId × List α) → List α}
    (step : ∀ id kids kids', List.Forall₂ (Kin f S) kids kids' →
      List.Forall₂ S (alg id kids) (alg' (f id) kids')) :
    List.Forall₂ S (doc.gather alg root) (doc'.gather alg' root) := by
  have fixed : f root = root := alike.old root positive
  have folds := alike.fold step doc.nodes.size root
  rw [fixed] at folds
  unfold Document.gather
  rw [alike.size]
  exact folds

theorem Alike.preorder (alike : Alike first f doc doc') (positive : 0 < first) :
    List.Forall₂ (fun a b => b = f a) doc.preorder doc'.preorder := by
  rw [preorder_eq, preorder_eq]
  refine alike.gather positive fun id kids kids' kin => ?_
  exact .cons rfl (List.rel_flatMap kin fun a b h => h.gathered)

theorem Alike.comments (alike : Alike first f doc doc') (id : NodeId) (slot : Slot) :
    List.Forall₂ Comment.Alike ((doc.node id).comments slot) ((doc'.node (f id)).comments slot) :=
  (alike.node id).comments slot

theorem Alike.revisionsOf (alike : Alike first f doc doc') (positive : 0 < first) :
    List.Forall₂ Revision.Alike (Press.revisionsOf doc) (Press.revisionsOf doc') := by
  have insert : ∀ {r r' : Revision} {rs rs' : List Revision}, r.Alike r' →
      List.Forall₂ Revision.Alike rs rs' →
      List.Forall₂ Revision.Alike (r.insert rs) (r'.insert rs') := by
    intro r r' rs rs' h hs
    induction hs with
    | nil => exact .cons h .nil
    | cons head tail ih =>
      unfold Revision.insert
      rw [h.lo, head.lo]
      split
      · exact .cons h (.cons head tail)
      · split
        · exact .cons h tail
        · exact .cons head ih
  have all : List.Forall₂ Comment.Alike (doc.preorder.flatMap fun id => (doc.node id).allComments)
      (doc'.preorder.flatMap fun id => (doc'.node id).allComments) := by
    refine List.rel_flatMap (alike.preorder positive) ?_
    rintro a _ rfl
    exact List.rel_append (List.rel_append (alike.comments a .leading) (alike.comments a .trailing))
      (alike.comments a .inner)
  refine List.rel_foldl (fun rs rs' hs c c' h => ?_) .nil all
  obtain ⟨-, -, span, revised⟩ := h.same
  rw [span, revised]
  cases c.span with
  | none => exact hs
  | some s =>
    dsimp only
    split
    · exact insert ⟨rfl, rfl, h.render⟩ hs
    · exact hs

theorem inserted_alike {cs ds : List Comment} (h : List.Forall₂ Comment.Alike cs ds) :
    List.Forall₂ Comment.Alike (inserted cs) (inserted ds) := by
  refine List.rel_filter (fun c d alike => ?_) h
  dsimp only [Comment.isInserted]
  rw [alike.same.2.2.1]

theorem endsOf_alike {cs ds : List Comment} (h : List.Forall₂ Comment.Alike cs ds) :
    endsOf ds = endsOf cs := by
  unfold endsOf
  induction h with
  | nil => rfl
  | cons head tail ih =>
    rw [List.filterMap_cons, List.filterMap_cons, head.same.2.2.1, ih]

theorem Alike.strokesEntering (alike : Alike first f doc doc') (id child : NodeId)
    (later : List NodeId) : doc'.strokesEntering (f id) (f child) (later.map f) =
      doc.strokesEntering id child later := by
  have span : ∀ j, doc'.span (f j) = doc.span j := fun j => (alike.node j).span
  have kind : doc'.kind (f id) = doc.kind id := (alike.node id).kind
  have inner : endsOf (doc'.node (f id)).inner = endsOf (doc.node id).inner :=
    endsOf_alike (alike.comments id .inner)
  unfold Document.strokesEntering
  rw [span, span, kind, inner, List.any_map]
  simp only [Function.comp_def, span]

theorem Alike.strokesBehind (alike : Alike first f doc doc') (id parent : NodeId) :
    List.Forall₂ Stroke.Alike (doc.strokesBehind id parent)
      (doc'.strokesBehind (f id) (f parent)) := by
  have span : ∀ j, doc'.span (f j) = doc.span j := fun j => (alike.node j).span
  have margin : doc'.marginOf (f id) (f parent) = doc.marginOf id parent := by
    unfold marginOf
    rw [span, span]
  have trailing : List.Forall₂ Comment.Alike (doc.node id).trailing (doc'.node (f id)).trailing :=
    alike.comments id .trailing
  have ends := endsOf_alike trailing
  unfold Document.strokesBehind
  rw [margin, ends]
  have new := inserted_alike trailing
  generalize inserted (doc.node id).trailing = cs at new ⊢
  generalize inserted (doc'.node (f id)).trailing = ds at new ⊢
  cases new with
  | nil => exact .nil
  | cons head tail => exact .cons (.behind _ _ (.cons head tail)) .nil

theorem Alike.strokesInside (alike : Alike first f doc doc') (id : NodeId)
    {kids kids' : List (NodeId × List Stroke)} (h : List.Forall₂ (Kin f Stroke.Alike) kids kids') :
    List.Forall₂ Stroke.Alike (doc.strokesInside id kids) (doc'.strokesInside (f id) kids') := by
  induction h with
  | nil => exact .nil
  | @cons a b kids kids' head tail ih =>
    have names : kids'.map (·.1) = (kids.map (·.1)).map f := by
      rw [List.map_map]
      exact (List.forall₂_eq_eq_eq ▸ List.rel_map (fun x y k => k.id.symm) tail :
        (kids.map (f ∘ (·.1))) = kids'.map (·.1)).symm
    have entering := alike.strokesEntering id a.1 (kids.map (·.1))
    unfold Document.strokesInside
    rw [head.id, names, entering]
    refine List.rel_append (List.rel_append (List.rel_append ?_ head.gathered) ?_) ih
    · exact List.forall₂_same.mpr fun s _ => .refl s
    · exact alike.strokesBehind a.1 id

theorem Alike.strokesOf (alike : Alike first f doc doc') (id : NodeId)
    {kids kids' : List (NodeId × List Stroke)} (h : List.Forall₂ (Kin f Stroke.Alike) kids kids') :
    List.Forall₂ Stroke.Alike (doc.strokesOf id kids) (doc'.strokesOf (f id) kids') := by
  have span : doc'.span (f id) = doc.span id := (alike.node id).span
  have kind : doc'.kind (f id) = doc.kind id := (alike.node id).kind
  have within := alike.strokesInside id h
  unfold Document.strokesOf
  rw [span, kind]
  cases doc.span id with
  | some s =>
    have leading := inserted_alike (alike.comments id .leading)
    exact .cons (.start s.lo leading) (List.rel_append within (.cons (.reach s.hi) .nil))
  | none =>
    cases doc.kind id with
    | empty => exact .nil
    | text value => exact .cons (.put (.inl rfl)) .nil
    | hole =>
      exact .cons (.put (.inl rfl)) (List.rel_append within (.cons (.put (.inl rfl)) .nil))
    | emptyHole => exact List.rel_map (fun c d k => .put k.render) (alike.comments id .inner)
    | _ => exact within

theorem Alike.strokes (alike : Alike first f doc doc') (positive : 0 < first) (size : Nat) :
    List.Forall₂ Stroke.Alike (doc.strokes size) (doc'.strokes size) := by
  refine List.rel_append ?_ (.cons (.reach size) .nil)
  exact alike.gather positive fun id kids kids' kin => alike.strokesOf id kin

/-- The pages of documents that are alike hold the same pieces, but for the order of rules. -/
theorem Alike.run (alike : Alike first f doc doc') (positive : 0 < first) (source : Text) :
    Both Page.Alike (Press.of doc source).run (Press.of doc' source).run := by
  rw [Press.run_eq_perform, Press.run_eq_perform]
  refine Both.foldlM (fun a b c d k h => ?_) (alike.strokes positive source.bytes) ⟨rfl, .nil⟩
  exact Press.perform_alike alike.eol (alike.revisionsOf positive) k h

end Document

/-- The same text, but for the order of rules inside directives. -/
inductive Rearranged : Text → Text → Prop where
  | same (t : Text) : Rearranged t t
  | directive {d d' : Directive} (kind : CommentKind) : d.Alike d' →
      Rearranged (d.encode kind) (d'.encode kind)
  | append {a a' b b' : Text} : Rearranged a a' → Rearranged b b' → Rearranged (a ++ b) (a' ++ b')

theorem Reworded.rearranged {t t' : Text} (h : Reworded t t') : Rearranged t t' := by
  rcases h with rfl | ⟨d, d', kind, a, b, alike, rfl, rfl, -, -⟩
  · exact .same t'
  · exact .append (.append (.same a) (.directive kind alike)) (.same b)

theorem Page.Alike.text {page page' : Page} (alike : page.Alike page') :
    Rearranged page.text page'.text := by
  have each : ∀ {ps ps' : List Piece}, List.Forall₂ Piece.Alike ps ps' →
      Rearranged (ps.flatMap (·.text)) (ps'.flatMap (·.text)) := by
    intro ps ps' h
    induction h with
    | nil => exact .same []
    | cons head tail ih =>
      rw [List.flatMap_cons, List.flatMap_cons]
      exact .append head.text.rearranged ih
  exact each (List.rel_reverse alike.pieces)

theorem Document.Alike.print {doc doc' : Document} {first : Nat} {f : NodeId → NodeId}
    (alike : Alike first f doc doc') (positive : 0 < first) (source : Text) :
    Both Rearranged (doc.print source) (doc'.print source) := by
  unfold Document.print
  have pages := alike.run positive source
  generalize (Press.of doc source).run = x at pages ⊢
  generalize (Press.of doc' source).run = y at pages ⊢
  cases pages with
  | ok h => exact .ok h.text
  | error e => exact .error e

end Quell
