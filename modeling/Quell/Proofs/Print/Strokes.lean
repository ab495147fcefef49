import Quell.Document.Print
import Quell.Proofs.Document.Tree

/-!
Printing as a list of strokes.

What the printer does is fixed before it starts: `strokes` gathers from the document a list of
simple moves, and printing performs them one after the other (`run_eq_perform`). A statement about
all printing is a statement about one stroke, and two documents are compared by their strokes.
-/
namespace Quell

theorem isBlank_of_isSpaceOrTab {c : Char} (h : Page.isSpaceOrTab c = true) : isBlank c = true := by
  unfold Page.isSpaceOrTab at h
  rw [Bool.or_eq_true, beq_iff_eq, beq_iff_eq] at h
  rcases h with rfl | rfl <;> decide

inductive Margin where
  | line (offset : Nat)
  | nested (offset : Option Nat)

inductive Stroke where
  /-- Up to where a node starts, then its inserted leading comments. -/
  | start (lo : Nat) (comments : List Comment)
  /-- Up to an offset. -/
  | reach (target : Nat)
  /-- Behind an opening brace and the comments that end at the given offsets. -/
  | inside (opened : Option Nat) (ends : List Nat)
  /-- Up to an anchor, then comments behind a node. -/
  | behind (anchor : Option Nat) (margin : Margin) (comments : List Comment)
  /-- Text that the source does not hold. -/
  | put (t : Text)

namespace Document

def inserted (cs : List Comment) : List Comment := cs.filter (·.isInserted)

theorem mem_inserted {cs : List Comment} {c : Comment} (h : c ∈ inserted cs) :
    c ∈ cs ∧ c.span = none := by
  obtain ⟨mem, new⟩ := List.mem_filter.mp h
  exact ⟨mem, by simpa [Comment.isInserted] using new⟩

def endsOf (cs : List Comment) : List Nat := cs.filterMap fun c => c.span.map (·.hi)

def strokesEntering (doc : Document) (id child : NodeId) (later : List NodeId) : List Stroke :=
  if (doc.span child).isNone && doc.kind id = .block &&
      !later.any (fun c => (doc.span c).isSome) then
    [.inside ((doc.span id).map (·.lo + 1)) (endsOf (doc.node id).inner)]
  else []

def marginOf (doc : Document) (id parent : NodeId) : Margin :=
  match doc.span id with
  | some s => .line s.lo
  | none => .nested ((doc.span parent).map (·.lo))

def strokesBehind (doc : Document) (id parent : NodeId) : List Stroke :=
  match inserted (doc.node id).trailing with
  | [] => []
  | cs => [.behind (endsOf (doc.node id).trailing).max? (doc.marginOf id parent) cs]

def strokesInside (doc : Document) (id : NodeId) : List (NodeId × List Stroke) → List Stroke
  | [] => []
  | (child, own) :: later =>
    doc.strokesEntering id child (later.map (·.1)) ++ own ++ doc.strokesBehind child id ++
      strokesInside doc id later

def strokesOf (doc : Document) (id : NodeId) (kids : List (NodeId × List Stroke)) :
    List Stroke :=
  match doc.span id with
  | some s =>
    .start s.lo (inserted (doc.node id).leading) :: doc.strokesInside id kids ++ [.reach s.hi]
  | none =>
    match doc.kind id with
    | .empty => []
    | .text value => [.put value]
    | .hole => .put ['\x7b'] :: doc.strokesInside id kids ++ [.put ['\x7d']]
    | .emptyHole => (doc.node id).inner.map fun c => .put c.render
    | _ => doc.strokesInside id kids

def strokes (doc : Document) (size : Nat) : List Stroke :=
  doc.gather doc.strokesOf root ++ [.reach size]

/-- The strokes inside of a node: those in front of a child, those of the child and those behind
it. -/
theorem forall_strokesInside {doc : Document} {x : NodeId} {P : Stroke → Prop}
    {ks : List (NodeId × List Stroke)}
    (entering : ∀ k ∈ ks, ∀ later, ∀ st ∈ doc.strokesEntering x k.1 later, P st)
    (own : ∀ k ∈ ks, ∀ st ∈ k.2, P st) (behind : ∀ k ∈ ks, ∀ st ∈ doc.strokesBehind k.1 x, P st) :
    ∀ st ∈ doc.strokesInside x ks, P st := by
  induction ks with
  | nil => exact nofun
  | cons k ks rest =>
    intro st mem
    rw [strokesInside, List.mem_append, List.mem_append, List.mem_append] at mem
    rcases mem with ((mem | mem) | mem) | mem
    · exact entering k List.mem_cons_self _ st mem
    · exact own k List.mem_cons_self st mem
    · exact behind k List.mem_cons_self st mem
    · exact rest (fun k hk => entering k (List.mem_cons_of_mem _ hk))
        (fun k hk => own k (List.mem_cons_of_mem _ hk))
        (fun k hk => behind k (List.mem_cons_of_mem _ hk)) st mem

theorem forall_strokesOf {doc : Document} {x : NodeId} {P : Stroke → Prop}
    {ks : List (NodeId × List Stroke)}
    (own : ∀ s, doc.span x = some s →
      P (.start s.lo (inserted (doc.node x).leading)) ∧ P (.reach s.hi))
    (text : ∀ t, doc.span x = none → doc.kind x = .text t → P (.put t))
    (brace : P (.put ['\x7b']) ∧ P (.put ['\x7d']))
    (slot : doc.span x = none → doc.kind x = .emptyHole → ∀ c ∈ (doc.node x).inner, P (.put c.render))
    (inside : ∀ st ∈ doc.strokesInside x ks, P st) : ∀ st ∈ doc.strokesOf x ks, P st := by
  unfold strokesOf
  cases span : doc.span x with
  | some s =>
    obtain ⟨first, last⟩ := own s span
    intro st mem
    simp only [List.cons_append, List.mem_cons, List.mem_append, List.not_mem_nil, or_false] at mem
    rcases mem with rfl | mem | rfl
    · exact first
    · exact inside st mem
    · exact last
  | none =>
    dsimp only
    split
    · exact nofun
    · rename_i t kind
      exact fun st mem => List.mem_singleton.mp mem ▸ text t span kind
    · intro st mem
      simp only [List.cons_append, List.mem_cons, List.mem_append, List.not_mem_nil, or_false] at mem
      rcases mem with rfl | mem | rfl
      · exact brace.1
      · exact inside st mem
      · exact brace.2
    · rename_i kind
      intro st mem
      obtain ⟨c, hc, rfl⟩ := List.mem_map.mp mem
      exact slot span kind c hc
    · exact inside

/-- What every node hands on from the strokes of its children to its own holds of all strokes below
a node. -/
theorem forall_gather_of_step {doc : Document} (linked : doc.Linked) {Q : NodeId → Prop}
    {P : Stroke → Prop} (valid : ∀ x, Q x → x < doc.nodes.size)
    (down : ∀ x c, Q x → doc.Holds x c → Q c)
    (step : ∀ x, Q x → ∀ ks : List (NodeId × List Stroke),
      (∀ k ∈ ks, doc.Holds x k.1 ∧ ∀ st ∈ k.2, P st) → ∀ st ∈ doc.strokesOf x ks, P st)
    (x : NodeId) (hx : Q x) : ∀ st ∈ doc.gather doc.strokesOf x, P st := by
  induction x using linked.induct with
  | node x ih =>
    rw [gather_eq linked (valid x hx)]
    refine step x hx _ fun k hk => ?_
    obtain ⟨c, hc, rfl⟩ := List.mem_map.mp hk
    exact ⟨hc, ih c hc (down x c hx hc)⟩

theorem forall_gather_put {doc : Document} (linked : doc.Linked) {Q : NodeId → Prop}
    {P : Stroke → Prop} (valid : ∀ x, Q x → x < doc.nodes.size)
    (down : ∀ x c, Q x → doc.Holds x c → Q c)
    (own : ∀ x s, Q x → doc.span x = some s →
      P (.start s.lo (inserted (doc.node x).leading)) ∧ P (.reach s.hi))
    (entering : ∀ x, Q x → doc.kind x = .block →
      P (.inside ((doc.span x).map (·.lo + 1)) (endsOf (doc.node x).inner)))
    (behind : ∀ x c, Q x → doc.Holds x c → ∀ st ∈ doc.strokesBehind c x, P st)
    (text : ∀ x t, Q x → doc.span x = none → doc.kind x = .text t → P (.put t))
    (brace : P (.put ['\x7b']) ∧ P (.put ['\x7d']))
    (slot : ∀ x, Q x → doc.span x = none → doc.kind x = .emptyHole →
      ∀ c ∈ (doc.node x).inner, P (.put c.render)) (x : NodeId) (hx : Q x) :
    ∀ st ∈ doc.gather doc.strokesOf x, P st := by
  refine forall_gather_of_step linked valid down (fun x hx ks each => ?_) x hx
  have inside : ∀ st ∈ doc.strokesInside x ks, P st := by
    refine forall_strokesInside (fun k _ later st mem => ?_) (fun k hk => (each k hk).2)
      fun k hk => behind x k.1 hx (each k hk).1
    unfold strokesEntering at mem
    split at mem
    next cond =>
      simp only [Bool.and_eq_true, decide_eq_true_eq] at cond
      rw [List.mem_singleton.mp mem]
      exact entering x hx cond.1.2
    next => cases mem
  exact forall_strokesOf (fun s span => own x s hx span) (fun t span kind => text x t hx span kind) brace
    (fun span kind c hc => slot x hx span kind c hc) inside

theorem forall_gather {doc : Document} (linked : doc.Linked) {Q : NodeId → Prop}
    {P : Stroke → Prop} (valid : ∀ x, Q x → x < doc.nodes.size)
    (down : ∀ x c, Q x → doc.Holds x c → Q c)
    (own : ∀ x s, Q x → doc.span x = some s →
      P (.start s.lo (inserted (doc.node x).leading)) ∧ P (.reach s.hi))
    (entering : ∀ x, Q x → doc.kind x = .block →
      P (.inside ((doc.span x).map (·.lo + 1)) (endsOf (doc.node x).inner)))
    (behind : ∀ x c, Q x → doc.Holds x c → ∀ st ∈ doc.strokesBehind c x, P st)
    (put : ∀ t, P (.put t)) (x : NodeId) (hx : Q x) : ∀ st ∈ doc.gather doc.strokesOf x, P st :=
  forall_gather_put linked valid down own entering behind (fun _ _ _ _ _ => put _)
    ⟨put _, put _⟩ (fun _ _ _ _ _ _ => put _) x hx

end Document

namespace Press

/-- Inserted leading comments at an offset. -/
def lead (press : Press) (page : Page) (lo : Nat) : List Comment → Except Fault Page
  | [] => .ok page
  | c :: cs => do
    let indent ← press.lineIndent lo
    let first ← press.firstOnLine lo
    let page := if first then page else (page.trimEnd.add press.eol).add indent
    return (c :: cs).foldl (fun p c => ((p.add c.render).add press.eol).add indent) page

def marginText (press : Press) : Margin → Except Fault Text
  | .line lo => press.lineIndent lo
  | .nested (some lo) => do
    let base ← press.lineIndent lo
    return base ++ indentUnit base
  | .nested none => .ok (indentUnit [])

def perform (press : Press) (page : Page) : Stroke → Except Fault Page
  | .start lo comments => do
    let page ← press.flushTo page lo
    press.lead page lo comments
  | .reach target => press.flushTo page target
  | .inside opened ends => press.flushTo page (ends.foldl max (opened.getD page.pos))
  | .behind (some offset) margin comments => do
    let page ← press.flushTo page offset
    let indent ← press.marginText margin
    comments.foldlM (press.emitTrailingComment indent) page
  | .behind none margin comments => do
    let indent ← press.marginText margin
    comments.foldlM (press.emitTrailingComment indent) page
  | .put t => .ok (page.add t)

variable (press : Press)

theorem emitLeading_eq (page : Page) (id : NodeId) (lo : Nat) :
    press.emitLeading page id lo =
      press.lead page lo (Document.inserted (press.doc.node id).leading) := by
  unfold emitLeading Document.inserted
  cases (press.doc.node id).leading.filter (·.isInserted) with
  | nil => rfl
  | cons c cs => rfl

theorem enterBlock_eq (page : Page) (id child : NodeId) (later : List NodeId) :
    press.enterBlock page id child later =
      (press.doc.strokesEntering id child later).foldlM press.perform page := by
  unfold enterBlock Document.strokesEntering
  split
  · rw [List.foldlM_cons]
    simp only [List.foldlM_nil, bind_pure, perform, interiorStart, Document.endsOf,
      Document.span]
    cases (press.doc.node id).span <;> rfl
  · rfl

theorem emitTrailing_eq (page : Page) (id parent : NodeId) :
    press.emitTrailing page id parent =
      (press.doc.strokesBehind id parent).foldlM press.perform page := by
  unfold emitTrailing Document.strokesBehind Document.inserted
  dsimp only
  cases (press.doc.node id).trailing.filter (·.isInserted) with
  | nil => rfl
  | cons c cs =>
    have margin : (match (press.doc.node id).span with
        | some s => press.lineIndent s.lo
        | none => press.nestedIndent parent) = press.marginText (press.doc.marginOf id parent) := by
      unfold Document.marginOf nestedIndent Document.span
      cases (press.doc.node id).span with
      | some s => rfl
      | none => cases (press.doc.node parent).span <;> rfl
    simp only [List.foldlM_cons, List.foldlM_nil, bind_pure, Document.endsOf]
    cases ((press.doc.node id).trailing.filterMap fun c => c.span.map (·.hi)).max? with
    | some anchor =>
      simp only [perform, ← margin]
      cases (press.doc.node id).span <;> rfl
    | none =>
      simp only [perform, ← margin]
      cases (press.doc.node id).span <;> rfl

theorem emitChildren_eq (emit : Page → NodeId → Except Fault Page) (own : NodeId → List Stroke)
    (each : ∀ page id, emit page id = (own id).foldlM press.perform page)
    (id : NodeId) (page : Page) (cs : List NodeId) :
    press.emitChildren emit id page cs =
      (press.doc.strokesInside id (cs.map fun c => (c, own c))).foldlM press.perform page := by
  induction cs generalizing page with
  | nil => rfl
  | cons c later ih =>
    have names : (later.map fun c => (c, own c)).map (·.1) = later := by
      simp [Function.comp_def]
    simp only [emitChildren, List.map_cons, Document.strokesInside, names, List.foldlM_append,
      enterBlock_eq, each, emitTrailing_eq, ih, bind_assoc]

theorem emit_eq_fold (fuel : Nat) (page : Page) (id : NodeId) :
    press.emit fuel page id =
      (press.doc.fold press.doc.strokesOf fuel id).foldlM press.perform page := by
  induction fuel generalizing page id with
  | zero => rfl
  | succ fuel ih =>
    have within := press.emitChildren_eq (press.emit fuel)
      (press.doc.fold press.doc.strokesOf fuel) ih id
    have kids : (press.doc.node id).children = press.doc.children id := rfl
    simp only [emit, Document.fold, Document.strokesOf, Document.span, Document.kind, within, kids]
    cases (press.doc.node id).span with
    | some s =>
      simp only [List.foldlM_cons, List.foldlM_append, List.foldlM_nil, List.cons_append,
        perform, emitLeading_eq, bind_assoc, bind_pure]
    | none =>
      cases (press.doc.node id).kind with
      | hole =>
        simp only [List.foldlM_cons, List.foldlM_append, List.foldlM_nil, List.cons_append,
          perform, bind_pure]
        rfl
      | emptyHole =>
        simp only []
        generalize (press.doc.node id).inner = cs
        induction cs generalizing page with
        | nil => rfl
        | cons c cs ihc =>
          simp only [List.foldl_cons, List.map_cons, List.foldlM_cons, perform]
          exact ihc (page.add c.render)
      | _ => rfl

/-- Printing performs the strokes of the document. -/
theorem run_eq_perform (doc : Document) (source : Text) :
    (Press.of doc source).run =
      (doc.strokes source.bytes).foldlM (Press.of doc source).perform {} := by
  unfold run Document.strokes
  rw [emit_eq_fold, List.foldlM_append]
  simp only [List.foldlM_cons, List.foldlM_nil, bind_pure]
  rfl

end Press

/-- Both computations fail in one way, or both succeed with related results. -/
inductive Both {α : Type} (R : α → α → Prop) : Except Fault α → Except Fault α → Prop where
  | ok {a b : α} : R a b → Both R (.ok a) (.ok b)
  | error (e : Fault) : Both R (.error e) (.error e)

namespace Both

variable {α β γ : Type} {R : α → α → Prop} {S : β → β → Prop} {Q : γ → γ → Prop}

theorem bind {x y : Except Fault α} {f g : α → Except Fault β} (h : Both R x y)
    (k : ∀ a b, R a b → Both S (f a) (g b)) : Both S (x >>= f) (y >>= g) := by
  cases h with
  | ok r => exact k _ _ r
  | error e => exact .error e

theorem bind_same (x : Except Fault α) {f g : α → Except Fault β}
    (k : ∀ a, Both S (f a) (g a)) : Both S (x >>= f) (x >>= g) := by
  cases x with
  | ok a => exact k a
  | error e => exact .error e

theorem foldlM {f g : α → γ → Except Fault α}
    (step : ∀ a b c d, R a b → Q c d → Both R (f a c) (g b d)) {cs ds : List γ}
    (h : List.Forall₂ Q cs ds) {a b : α} (start : R a b) :
    Both R (cs.foldlM f a) (ds.foldlM g b) := by
  induction h generalizing a b with
  | nil => exact .ok start
  | cons head tail ih =>
    rw [List.foldlM_cons, List.foldlM_cons]
    exact bind (step _ _ _ _ start head) fun _ _ => ih

end Both

end Quell
