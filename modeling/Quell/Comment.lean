import Quell.Directive

/-!
Comments with their place beside a node, and how a rule is merged into one.
-/
namespace Quell

/-- A byte range of the source with the lines of its two ends. -/
structure Span where
  lo : Nat
  hi : Nat
  startLine : Nat
  endLine : Nat
  deriving DecidableEq, Repr, Inhabited

/-- By offsets alone; the lines are not looked at. -/
def Span.contains (outer inner : Span) : Bool := outer.lo ≤ inner.lo && inner.hi ≤ outer.hi

/-- Where a comment stands beside its node. A trailing comment with a line of its own is printed
behind a line break. -/
inductive Placement where
  | leading
  | trailing (ownLine : Bool)
  | inner
  deriving DecidableEq, Repr, Inhabited

/-- The comment lists of a node. -/
inductive Slot where
  | leading
  | trailing
  | inner
  deriving DecidableEq, Repr, Inhabited

/-- A comment read from a source has a span; an inserted one has none. -/
structure Comment where
  kind : CommentKind
  text : Text
  placement : Placement
  span : Option Span := none
  revised : Bool := false
  deriving DecidableEq, Repr, Inhabited

namespace Comment

def isInserted (c : Comment) : Bool := c.span.isNone

def setText (c : Comment) (text : Text) : Comment := { c with text, revised := true }

def delimit : CommentKind → Text → Text
  | .line, body => '/' :: '/' :: body
  | .block, body => '/' :: '*' :: body ++ ['*', '/']

def render (c : Comment) : Text := delimit c.kind c.text

inductive Merge where
  | notADirective
  | alreadySuppressed
  | merged
  deriving DecidableEq, Repr, Inhabited

def Merge.isHandled : Merge → Bool
  | notADirective => false
  | _ => true

/-- Add a rule to a directive comment; its form and explanation stay. -/
def merge (c : Comment) (rule : Text) : Comment × Merge :=
  match Directive.parse? c.text with
  | none => (c, .notADirective)
  | some d =>
    match d.add? rule with
    | none => (c, .alreadySuppressed)
    | some d' => (c.setText (d'.encode c.kind), .merged)

def mergeLast : List Comment → Text → List Comment × Merge
  | [], _ => ([], .notADirective)
  | [c], rule => let (c', r) := c.merge rule; ([c'], r)
  | c :: d :: cs, rule => let (cs', r) := mergeLast (d :: cs) rule; (c :: cs', r)

end Comment
end Quell
