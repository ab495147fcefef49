import Quell.Document.Basic
import Quell.Text.Blank

/-!
Which node receives the directive for a line: the outermost one that starts there. In front of an
alternate there is no room, so it is served from the end of the block before it.
-/
namespace Quell

inductive Target where
  | node (id : NodeId) (parent : Option NodeId)
  /-- The end of a block whose alternate starts on the line. -/
  | blockTail (consequent : NodeId)
  deriving DecidableEq, Repr, Inhabited

namespace Document

/-- Nodes below the root that start on a line, in document order. Blank text is layout and never
counts. -/
def startingOn (doc : Document) (line : Nat) : List NodeId :=
  doc.preorder.filter fun id =>
    id != root && !doc.isBlankText id && (doc.span id).any (·.startLine == line)

/-- Climb while the parent has no span or starts on the same line; never into the root. -/
def ascend (doc : Document) (line : Nat) : Nat → NodeId → NodeId
  | 0, id => id
  | fuel + 1, id =>
    match doc.parent id with
    | none => id
    | some p =>
      if p = root || (doc.span p).any (·.startLine != line) then id
      else ascend doc line fuel p

/-- The target for a diagnostic on a line; `none` if no node starts there. -/
def locate (doc : Document) (line : Nat) : Option Target :=
  let found := doc.startingOn line
  let first := (found.find? fun id => (doc.span id).any (·.endLine == line)).or found.head?
  first.map fun id =>
    let id := doc.ascend line doc.nodes.size id
    match doc.parent id with
    | none => .node id none
    | some p =>
      match doc.branches p with
      | some (consequent, some alternate) =>
        if alternate = id && doc.kind consequent = .block then .blockTail consequent
        else .node id (some p)
      | _ => .node id (some p)

end Document
end Quell
