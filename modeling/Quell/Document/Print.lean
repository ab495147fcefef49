import Quell.Document.Basic
import Quell.Document.Edit
import Quell.Text.Blank

/-!
Printing a document over its source. What no edit touched is copied; inserted comments, revised
comments and nodes without span are woven in. The page is kept as a list of pieces, each of which
knows the bytes of the source that it stands for, if any.
-/
namespace Quell

inductive Origin where
  | copied (lo hi : Nat)
  | revised (lo hi : Nat)
  | added
  deriving DecidableEq, Repr, Inhabited

structure Piece where
  origin : Origin
  text : Text
  deriving DecidableEq, Repr, Inhabited

/-- A page under way: its pieces, last one first, and the offset up to which the source is
spent. -/
structure Page where
  pieces : List Piece := []
  pos : Nat := 0
  deriving Repr, Inhabited

namespace Page

def text (page : Page) : Text := page.pieces.reverse.flatMap (·.text)

def add (page : Page) (t : Text) : Page := { page with pieces := ⟨.added, t⟩ :: page.pieces }

def isSpaceOrTab (c : Char) : Bool := c == ' ' || c == '\t'

def stripEnd : List Piece → List Piece
  | [] => []
  | p :: ps =>
    match p.text.reverse.dropWhile isSpaceOrTab with
    | [] => { p with text := [] } :: stripEnd ps
    | kept => { p with text := kept.reverse } :: ps

def trimEnd (page : Page) : Page := { page with pieces := stripEnd page.pieces }

end Page

structure Revision where
  lo : Nat
  hi : Nat
  text : Text
  deriving Repr, Inhabited

namespace Revision

def insert (r : Revision) : List Revision → List Revision
  | [] => [r]
  | q :: qs =>
    if r.lo < q.lo then r :: q :: qs
    else if r.lo = q.lo then r :: qs
    else q :: insert r qs

end Revision

/-- What printing reads and never changes. -/
structure Press where
  doc : Document
  source : Text
  /-- Bytes of the source. -/
  size : Nat
  revisions : List Revision
  deriving Repr, Inhabited

namespace Press

def revisionsOf (doc : Document) : List Revision :=
  (doc.preorder.flatMap fun id => (doc.node id).allComments).foldl
    (fun rs c => match c.span with
      | some s => if c.revised then Revision.insert ⟨s.lo, s.hi, c.render⟩ rs else rs
      | none => rs) []

def of (doc : Document) (source : Text) : Press := ⟨doc, source, source.bytes, revisionsOf doc⟩

def slice (press : Press) (lo hi : Nat) : Except Fault Text :=
  match press.source.slice? lo hi with
  | some t => .ok t
  | none => .error .outsideText

def copyTo (press : Press) (page : Page) (target : Nat) : Except Fault Page := do
  let t ← press.slice page.pos target
  return ⟨⟨.copied page.pos target, t⟩ :: page.pieces, target⟩

def copyRevision (press : Press) (page : Page) (r : Revision) : Except Fault Page := do
  let page ← press.copyTo page r.lo
  return ⟨⟨.revised r.lo r.hi, r.text⟩ :: page.pieces, r.hi⟩

def flushTo (press : Press) (page : Page) (target : Nat) : Except Fault Page := do
  let target := min target press.size
  if target ≤ page.pos then return page
  let due := press.revisions.filter fun r =>
    page.pos ≤ r.lo && r.lo < target && r.hi ≤ target
  let page ← due.foldlM press.copyRevision page
  press.copyTo page target

def lineStart (press : Press) (offset : Nat) : Except Fault Nat := do
  let before ← press.slice 0 offset
  return offset - before.lastLine.bytes

def firstOnLine (press : Press) (offset : Nat) : Except Fault Bool := do
  let before ← press.slice 0 offset
  return before.lastLine.allBlank

def lineIndent (press : Press) (offset : Nat) : Except Fault Text := do
  let start ← press.lineStart (min offset press.size)
  let rest ← press.slice start press.size
  return rest.takeWhile Page.isSpaceOrTab

def indentUnit (base : Text) : Text := if base.contains '\t' then ['\t'] else [' ', ' ']

def nestedIndent (press : Press) (parent : NodeId) : Except Fault Text := do
  let base ← match press.doc.span parent with
    | some s => press.lineIndent s.lo
    | none => .ok []
  return base ++ indentUnit base

def codeFollows (press : Press) (page : Page) : Except Fault Bool := do
  let rest ← press.slice page.pos press.size
  return !rest.firstLine.allBlank

def eol (press : Press) : Text := press.doc.eol.text

/-- Inserted leading comments, each on a line of its own. Code in front of the node moves to the
line above. -/
def emitLeading (press : Press) (page : Page) (id : NodeId) (lo : Nat) : Except Fault Page := do
  match (press.doc.node id).leading.filter (·.isInserted) with
  | [] => return page
  | comments =>
    let indent ← press.lineIndent lo
    let first ← press.firstOnLine lo
    let page := if first then page else (page.trimEnd.add press.eol).add indent
    return comments.foldl (fun p c => ((p.add c.render).add press.eol).add indent) page

def emitTrailingComment (press : Press) (indent : Text) (page : Page) (c : Comment) :
    Except Fault Page := do
  let follows ← press.codeFollows page
  let cuts := follows && c.kind == .line
  match c.placement with
  | .trailing true =>
    let page := ((page.add press.eol).add indent).add c.render
    if cuts then
      let resume ← press.lineIndent page.pos
      return (page.add press.eol).add resume
    else return page
  | _ =>
    if cuts then return page.add (" /*".toList ++ c.text.trimEnd ++ " */".toList)
    else return (page.add [' ']).add c.render

def emitTrailing (press : Press) (page : Page) (id parent : NodeId) : Except Fault Page := do
  let node := press.doc.node id
  match node.trailing.filter (·.isInserted) with
  | [] => return page
  | comments =>
    let page ← match (node.trailing.filterMap fun c => c.span.map (·.hi)).max? with
      | some anchor => press.flushTo page anchor
      | none => .ok page
    let indent ← match node.span with
      | some s => press.lineIndent s.lo
      | none => press.nestedIndent parent
    comments.foldlM (press.emitTrailingComment indent) page

def interiorStart (press : Press) (page : Page) (block : NodeId) : Nat :=
  let node := press.doc.node block
  let opened := match node.span with
    | some s => s.lo + 1
    | none => page.pos
  (node.inner.filterMap fun c => c.span.map (·.hi)).foldl max opened

def enterBlock (press : Press) (page : Page) (id child : NodeId) (later : List NodeId) :
    Except Fault Page :=
  if (press.doc.span child).isNone && press.doc.kind id = .block &&
      !later.any (fun c => (press.doc.span c).isSome) then
    press.flushTo page (press.interiorStart page id)
  else .ok page

def emitChildren (press : Press) (emit : Page → NodeId → Except Fault Page) (id : NodeId) :
    Page → List NodeId → Except Fault Page
  | page, [] => .ok page
  | page, child :: later => do
    let page ← press.enterBlock page id child later
    let page ← emit page child
    let page ← press.emitTrailing page child id
    emitChildren press emit id page later

def emit (press : Press) : Nat → Page → NodeId → Except Fault Page
  | 0, page, _ => .ok page
  | fuel + 1, page, id =>
    let node := press.doc.node id
    let inside := fun page => press.emitChildren (emit press fuel) id page node.children
    match node.span with
    | some s => do
      let page ← press.flushTo page s.lo
      let page ← press.emitLeading page id s.lo
      let page ← inside page
      press.flushTo page s.hi
    | none =>
      match node.kind with
      | .empty => .ok page
      | .text value => .ok (page.add value)
      | .hole => do
        let page ← inside (page.add ['\x7b'])
        return page.add ['\x7d']
      | .emptyHole => .ok (node.inner.foldl (fun p c => p.add c.render) page)
      | _ => inside page

/-- The finished page: the root, then what is left of the source. -/
def run (press : Press) : Except Fault Page := do
  let page ← press.emit press.doc.nodes.size {} Document.root
  press.flushTo page press.size

end Press

/-- The text of a document over the source that it was read from. -/
def Document.print (doc : Document) (source : Text) : Except Fault Text :=
  (Press.of doc source).run.map (·.text)

end Quell
