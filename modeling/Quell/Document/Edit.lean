import Quell.Document.Basic
import Quell.Text.Segment

/-!
The edits that a document admits. Each one keeps the table and only adds to it, so a node keeps
its position for good.
-/
namespace Quell

inductive Fault where
  /-- A byte range does not lie inside a text, or cuts a character. -/
  | outsideText
  /-- Fragments do not add up to the text that they are to replace. -/
  | textMismatch
  deriving DecidableEq, Repr, Inhabited

namespace Document

def appendChild (doc : Document) (parent child : NodeId) : Document :=
  (doc.update child fun n => { n with parent := some parent }).update parent fun n =>
    { n with children := n.children ++ [child] }

def appendComment (doc : Document) (id : NodeId) (slot : Slot) (c : Comment) : Document :=
  doc.update id fun n => n.setComments slot (n.comments slot ++ [c])

def mergeInto (doc : Document) (id : NodeId) (slot : Slot) (rule : Text) :
    Document × Comment.Merge :=
  let (cs, result) := Comment.mergeLast ((doc.node id).comments slot) rule
  (doc.update id fun n => n.setComments slot cs, result)

def adopt (doc : Document) (parent : NodeId) (ids : List NodeId) : Document :=
  ids.foldl (fun d id => d.update id fun n => { n with parent := some parent }) doc

def insertChildren (doc : Document) (parent : NodeId) (index : Nat) (ids : List NodeId) :
    Document :=
  (doc.adopt parent ids).update parent fun n =>
    { n with children := n.children.take index ++ ids ++ n.children.drop index }

def replaceText (doc : Document) (id : NodeId) (fragments : List NodeId) :
    Except Fault Document :=
  match doc.parent id, doc.indexInParent id with
  | some parent, some index =>
    if fragments.flatMap (fun f => (doc.text? f).getD []) = (doc.text? id).getD [] then
      let moved := (doc.adopt parent fragments).update parent fun n =>
        { n with children := n.children.take index ++ fragments ++ n.children.drop (index + 1) }
      .ok (moved.update id fun n => { n with parent := none })
    else .error .textMismatch
  | _, _ => .ok doc

def fragmentSpan (s : Span) (before part : Text) : Span :=
  let line := s.startLine + before.breaks
  ⟨s.lo + before.bytes, s.lo + before.bytes + part.bytes, line, line + part.breaks⟩

def textFragment (doc : Document) (source : NodeId) (offset len : Nat) :
    Except Fault (Document × NodeId) :=
  let value := (doc.text? source).getD []
  match Text.slice? 0 offset value, Text.slice? offset (offset + len) value with
  | some before, some part =>
    .ok (doc.alloc (.text part) ((doc.span source).map (fragmentSpan · before part)))
  | _, _ => .error .outsideText

/-- Cut a text node in two. `none` for another node, or for an offset inside a character or past
the end. -/
def splitText (doc : Document) (id : NodeId) (cut : Nat) :
    Except Fault (Document × Option (NodeId × NodeId)) :=
  match doc.text? id with
  | none => .ok (doc, none)
  | some value =>
    if value.isBoundary cut then do
      let (doc, head) ← doc.textFragment id 0 cut
      let (doc, tail) ← doc.textFragment id cut (value.bytes - cut)
      let doc ← doc.replaceText id [head, tail]
      return (doc, some (head, tail))
    else .ok (doc, none)

def textFragments (doc : Document) (source : NodeId) :
    List (Nat × Nat × Text) → Except Fault (Document × List NodeId)
  | [] => .ok (doc, [])
  | (lo, hi, _) :: rest => do
    let (doc, id) ← doc.textFragment source lo (hi - lo)
    let (doc, ids) ← textFragments doc source rest
    return (doc, id :: ids)

def segmentText (doc : Document) (id : NodeId) : Except Fault Document :=
  match doc.text? id with
  | none => .ok doc
  | some value =>
    if value.startsWithBreak && value.allBlank then .ok doc
    else match value.segmentRanges with
      | [_] => .ok doc
      | ranges => do
        let (doc, fragments) ← doc.textFragments id ranges
        doc.replaceText id fragments

/-- Segment the text children of an element or fragment, from the last to the first; `keep` stays
as it is. -/
def segmentChildren (doc : Document) (parent keep : NodeId) : Except Fault Document :=
  match doc.markupRange parent with
  | none => .ok doc
  | some (start, stop) =>
    (((doc.children parent).take stop).drop start).reverse.foldlM
      (fun d child => if child = keep then .ok d else d.segmentText child) doc

def sortsBefore (doc : Document) (a b : NodeId) : Bool :=
  match doc.span a, doc.span b with
  | some s, some t => s.lo ≤ t.lo
  | none, some _ => false
  | _, none => true

def sortChildren (doc : Document) : Document :=
  { doc with
    nodes := doc.nodes.map fun n => { n with children := n.children.mergeSort doc.sortsBefore } }

def addPlaceholder (doc : Document) (block : NodeId) : Document × NodeId :=
  let (doc, id) := doc.alloc .empty none
  (doc.appendChild block id, id)

def newText (doc : Document) (value : Text) : Document × NodeId := doc.alloc (.text value) none

/-- A hole around an empty expression with one block comment, the shape that a markup comment has
when it is read. -/
def newMarkupComment (doc : Document) (text : Text) : Document × NodeId :=
  let (doc, hole) := doc.alloc .hole none
  let (doc, empty) := doc.alloc .emptyHole none
  let doc := doc.appendChild hole empty
  (doc.appendComment empty .inner { kind := .block, text, placement := .inner }, hole)

end Document
end Quell
