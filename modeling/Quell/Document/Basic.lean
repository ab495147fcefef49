import Quell.Comment
import Quell.Text.Lines

/-!
Documents: a table of nodes that name each other by position.

The child lists say what a document holds and in which order; the parent of a node is a link back
that serves ascent. Nodes that the root does not reach stay in the table. The layouts that the
rest of the library relies on are

* conditional: test, consequent, and an alternate if there is one;
* element, fragment: opening tag, markup children, closing tag;
* hole: exactly one child.
-/
namespace Quell

abbrev NodeId := Nat

/-- What a node stands for. `part` is every construct without a kind of its own: declarators,
parameters, patterns, properties. -/
inductive NodeKind where
  | program
  | block
  | conditional
  | empty
  | statement
  | expression
  | part
  | element
  | fragment
  | openingTag
  | closingTag
  | attribute
  | text (value : Text)
  | hole
  | emptyHole
  deriving DecidableEq, Repr, Inhabited

namespace NodeKind

def isMarkup : NodeKind → Bool
  | program | block | conditional | empty | statement | expression | part => false
  | _ => true

/-- Elements and fragments own a list of markup children. -/
def hasMarkupChildren : NodeKind → Bool
  | element | fragment => true
  | _ => false

def text? : NodeKind → Option Text
  | text value => some value
  | _ => none

end NodeKind

structure Node where
  kind : NodeKind
  span : Option Span
  parent : Option NodeId := none
  children : List NodeId := []
  leading : List Comment := []
  trailing : List Comment := []
  inner : List Comment := []
  deriving DecidableEq, Repr, Inhabited

namespace Node

def comments (n : Node) : Slot → List Comment
  | .leading => n.leading
  | .trailing => n.trailing
  | .inner => n.inner

def setComments (n : Node) (slot : Slot) (cs : List Comment) : Node :=
  match slot with
  | .leading => { n with leading := cs }
  | .trailing => { n with trailing := cs }
  | .inner => { n with inner := cs }

def allComments (n : Node) : List Comment := n.leading ++ n.trailing ++ n.inner

end Node

/-- The root is the first node of the table. -/
structure Document where
  nodes : Array Node
  eol : LineEnding := .lf
  deriving DecidableEq, Repr, Inhabited

namespace Document

def root : NodeId := 0

/-- A document without content. -/
def new (span : Option Span) (eol : LineEnding) : Document :=
  ⟨#[{ kind := .program, span }], eol⟩

/-- The node at a position; a position outside the table holds an empty statement. -/
def node (doc : Document) (id : NodeId) : Node := doc.nodes.getD id { kind := .empty, span := none }

def kind (doc : Document) (id : NodeId) : NodeKind := (doc.node id).kind
def span (doc : Document) (id : NodeId) : Option Span := (doc.node id).span
def parent (doc : Document) (id : NodeId) : Option NodeId := (doc.node id).parent
def children (doc : Document) (id : NodeId) : List NodeId := (doc.node id).children
def text? (doc : Document) (id : NodeId) : Option Text := (doc.kind id).text?

def isBlankText (doc : Document) (id : NodeId) : Bool :=
  match doc.text? id with
  | some value => value.allBlank
  | none => false

def update (doc : Document) (id : NodeId) (f : Node → Node) : Document :=
  { doc with nodes := doc.nodes.modify id f }

def alloc (doc : Document) (kind : NodeKind) (span : Option Span) : Document × NodeId :=
  ({ doc with nodes := doc.nodes.push { kind, span } }, doc.nodes.size)

def indexInParent (doc : Document) (id : NodeId) : Option Nat :=
  (doc.parent id).bind fun p => (doc.children p).findIdx? (· == id)

/-- Nodes below `id` in document order, `id` first, each with its depth below the start. The first
argument bounds the depth; without a cycle the number of nodes is bound enough. -/
def walk (doc : Document) : Nat → Nat → NodeId → List (Nat × NodeId)
  | 0, _, _ => []
  | fuel + 1, depth, id =>
    (depth, id) :: (doc.children id).flatMap (walk doc fuel (depth + 1))

def outline (doc : Document) : List (Nat × NodeId) := doc.walk doc.nodes.size 0 root

def preorder (doc : Document) : List NodeId := doc.outline.map (·.2)

def branches (doc : Document) (id : NodeId) : Option (NodeId × Option NodeId) :=
  match doc.kind id, doc.children id with
  | .conditional, _ :: consequent :: rest => some (consequent, rest.head?)
  | _, _ => none

/-- Where the markup children of an element or fragment start and end in its child list, its tags
left out. -/
def markupRange (doc : Document) (id : NodeId) : Option (Nat × Nat) :=
  if (doc.kind id).hasMarkupChildren then
    let cs := doc.children id
    let start := if cs.head?.map doc.kind = some .openingTag then 1 else 0
    let stop := if cs.getLast?.map doc.kind = some .closingTag then cs.length - 1 else cs.length
    some (start, max start stop)
  else none

def commentSlot (doc : Document) (hole : NodeId) : Option NodeId :=
  match doc.kind hole, doc.children hole with
  | .hole, inner :: _ => if doc.kind inner = .emptyHole then some inner else none
  | _, _ => none

end Document
end Quell
