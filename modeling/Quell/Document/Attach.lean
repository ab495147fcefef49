import Quell.Document.Edit

/-!
Every comment of a source gets one owner: a node beside it, or the smallest node around it.
-/
namespace Quell

/-- A comment as it was read, without owner. -/
structure RawComment where
  kind : CommentKind
  text : Text
  span : Span
  deriving DecidableEq, Repr, Inhabited

namespace Document

def enclosing (doc : Document) (s : Span) : Nat → NodeId → NodeId
  | 0, id => id
  | fuel + 1, id =>
    match (doc.children id).find? fun c => (doc.span c).any (·.contains s) with
    | some child => enclosing doc s fuel child
    | none => id

/-- Children that have a span, with it. -/
def spanned (doc : Document) (id : NodeId) : List (NodeId × Span) :=
  (doc.children id).filterMap fun c => (doc.span c).map fun s => (c, s)

/-- Owner, slot and placement of a comment. Between two children it belongs to the first if it
starts on that one's last line, else to the second. -/
def owner (doc : Document) (s : Span) : NodeId × Slot × Placement :=
  let around := doc.enclosing s doc.nodes.size root
  let beside := doc.spanned around
  let before := (beside.filter fun (_, t) => t.hi ≤ s.lo).getLast?
  let behind := beside.find? fun (_, t) => s.hi ≤ t.lo
  match before, behind with
  | some (prev, t), some (next, _) =>
    if t.endLine = s.startLine then (prev, .trailing, .trailing false)
    else (next, .leading, .leading)
  | none, some (next, _) => (next, .leading, .leading)
  | some (prev, t), none => (prev, .trailing, .trailing (t.endLine != s.startLine))
  | none, none => (around, .inner, .inner)

def attach (doc : Document) (raw : RawComment) : Document :=
  let (id, slot, placement) := doc.owner raw.span
  doc.appendComment id slot
    { kind := raw.kind, text := raw.text, placement, span := some raw.span }

/-- Attach comments in the order of the list. -/
def attachAll (doc : Document) (raws : List RawComment) : Document := raws.foldl attach doc

end Document
end Quell
