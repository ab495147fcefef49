import Quell.Diagnostic
import Quell.Document.Edit
import Quell.Document.Locate
import Quell.Document.Print

/-!
Placing directives. Each diagnostic is merged into a directive next to its target, or gets a new
one, whose shape depends on where the target stands:

* in front of an alternate: a comment at the end of the block before it;
* a closing tag: a markup comment as last child of the element;
* a child of an element: a markup comment on a line of its own;
* anything else: a comment at the target itself.
-/
namespace Quell

def defaultMessage : Text := "TODO: Fix this the next time the file is edited.".toList

structure AnnotateOptions where
  message : Text := defaultMessage
  /-- Rules to suppress; none means all. -/
  rules : List Text := []
  /-- Write behind the code instead of above it. -/
  inline : Bool := false
  deriving DecidableEq, Repr, Inhabited

def AnnotateOptions.allows (o : AnnotateOptions) (rule : Text) : Bool :=
  o.rules.isEmpty || o.rules.contains rule

inductive SkipReason where
  | noNodeOnLine
  | noMarkupChildren
  deriving DecidableEq, Repr, Inhabited

def SkipReason.description : SkipReason → Text
  | noNodeOnLine => "no syntax node starts on this line".toList
  | noMarkupChildren => "the enclosing markup node has no children to insert into".toList

inductive Resolution where
  | inserted
  | merged
  | alreadySuppressed
  | skipped (reason : SkipReason)
  deriving DecidableEq, Repr, Inhabited

def Resolution.ofMerge : Comment.Merge → Option Resolution
  | .notADirective => none
  | .alreadySuppressed => some .alreadySuppressed
  | .merged => some .merged

structure Skipped where
  line : Nat
  rule : Text
  reason : SkipReason
  deriving DecidableEq, Repr, Inhabited

structure Summary where
  inserted : Nat := 0
  merged : Nat := 0
  alreadySuppressed : Nat := 0
  skipped : List Skipped := []
  deriving DecidableEq, Repr, Inhabited

namespace Summary

def changed (s : Summary) : Bool := 0 < s.inserted + s.merged

def record (s : Summary) (line : Nat) (rule : Text) : Resolution → Summary
  | .inserted => { s with inserted := s.inserted + 1 }
  | .merged => { s with merged := s.merged + 1 }
  | .alreadySuppressed => { s with alreadySuppressed := s.alreadySuppressed + 1 }
  | .skipped reason => { s with skipped := s.skipped ++ [⟨line, rule, reason⟩] }

end Summary

namespace Document

/-- The body of a new directive. -/
def directiveText (o : AnnotateOptions) (form : Directive.Form) (rule : Text)
    (kind : CommentKind) : Text :=
  (Directive.single form rule (some o.message)).encode kind

/-- Blanks behind the last line break, if there is a break and something behind it and nothing
but blanks. -/
def trailingIndent (t : Text) : Option Text :=
  match Text.splitLast? '\n' t with
  | some (_, run) => if !run.isEmpty && run.allBlank then some run else none
  | none => none

def attachOrdinary (o : AnnotateOptions) (doc : Document) (id : NodeId) (rule : Text) :
    Document × Resolution :=
  let (doc, leading) := doc.mergeInto id .leading rule
  match Resolution.ofMerge leading with
  | some r => (doc, r)
  | none =>
    let (doc, trailing) := doc.mergeInto id .trailing rule
    match Resolution.ofMerge trailing with
    | some r => (doc, r)
    | none =>
      let (slot, placement, form) :=
        if o.inline then (Slot.trailing, Placement.trailing false, Directive.Form.sameLine)
        else (Slot.leading, Placement.leading, Directive.Form.nextLine)
      let text := directiveText o form rule .line
      (doc.appendComment id slot { kind := .line, text, placement }, .inserted)

def attachBehindLast (o : AnnotateOptions) (doc : Document) (block : NodeId) (rule : Text) :
    Document × Resolution :=
  match (doc.children block).getLast? with
  | none => (doc, .skipped .noNodeOnLine)
  | some last =>
    let (doc, result) := doc.mergeInto last .trailing rule
    match Resolution.ofMerge result with
    | some r => (doc, r)
    | none =>
      let text := directiveText o .nextLine rule .line
      (doc.appendComment last .trailing { kind := .line, text, placement := .trailing true },
        .inserted)

def attachToBlockTail (o : AnnotateOptions) (doc : Document) (block : NodeId) (rule : Text) :
    Document × Resolution :=
  if (doc.children block).isEmpty then
    let (doc, result) := doc.mergeInto block .inner rule
    match Resolution.ofMerge result with
    | some r => (doc, r)
    | none => attachBehindLast o (doc.addPlaceholder block).1 block rule
  else attachBehindLast o doc block rule

/-- Merge into the markup comment that is nearest in front of an index, with nothing but blank
text between. -/
def mergeBefore (doc : Document) (parent : NodeId) (before : Nat) (rule : Text) :
    Document × Comment.Merge :=
  match doc.markupRange parent with
  | none => (doc, .notADirective)
  | some (start, stop) =>
    let siblings := (((doc.children parent).take (min before stop)).drop start).reverse
    match siblings.find? (!doc.isBlankText ·) with
    | none => (doc, .notADirective)
    | some sibling =>
      match doc.commentSlot sibling with
      | some slot => doc.mergeInto slot .inner rule
      | none => (doc, .notADirective)

def tailText (doc : Document) : List NodeId → Text
  | [] => []
  | id :: ids =>
    match doc.text? id with
    | some t => tailText doc ids ++ t
    | none => []

def attachBeforeClosing (o : AnnotateOptions) (doc : Document) (element : NodeId) (rule : Text) :
    Document × Resolution :=
  match doc.markupRange element with
  | none => (doc, .skipped .noMarkupChildren)
  | some (start, stop) =>
    let (doc, result) := doc.mergeBefore element stop rule
    match Resolution.ofMerge result with
    | some r => (doc, r)
    | none =>
      let siblings := (((doc.children element).take stop).drop start).reverse
      let (doc, hole) := doc.newMarkupComment (directiveText o .nextLine rule .block)
      match trailingIndent (doc.tailText siblings) with
      | some indent =>
        let (doc, before) := doc.newText (Press.indentUnit indent)
        let (doc, behind) := doc.newText (doc.eol.text ++ indent)
        (doc.insertChildren element stop [before, hole, behind], .inserted)
      | none =>
        let (doc, behind) := doc.newText doc.eol.text
        (doc.insertChildren element stop [hole, behind], .inserted)

/-- How far the siblings in front of a target, nearest first, stand on its line: the index of the
farthest one that counts. Siblings without text and span are passed over. -/
def groupStart (doc : Document) (line : Nat) : List NodeId → Nat → Nat → Nat
  | [], _, found => found
  | id :: ids, index, found =>
    match doc.text? id with
    | some t => if t.contains '\n' then found else groupStart doc line ids (index - 1) (index - 1)
    | none =>
      match doc.span id with
      | some s =>
        if s.startLine != line then found else groupStart doc line ids (index - 1) (index - 1)
      | none => groupStart doc line ids (index - 1) found

def endsLine (doc : Document) (cs : List NodeId) (index : Nat) : Bool :=
  match cs[index]?.bind doc.text? with
  | some t => t.getLast? = some '\n'
  | none => false

/-- Where among the children a new markup comment goes, and the indentation that its line has.
Indentation that stands in a text of its own is stepped over; at the end of a longer text it is
split off. -/
def indentBefore (doc : Document) (cs : List NodeId) (start index target : Nat) :
    Except Fault (Document × Nat × Text) :=
  let own := match cs[index]?.bind doc.text? with
    | some t =>
      if index < target && !t.isEmpty && t.allBlank &&
          (index = start || doc.endsLine cs (index - 1)) then some t else none
    | none => none
  match own with
  | some t => .ok (doc, index + 1, t)
  | none =>
    if start < index then
      match cs[index - 1]? with
      | some prev =>
        match (doc.text? prev).bind fun t => (trailingIndent t).map fun run => (t, run) with
        | some (t, run) => do
          let (doc, halves) ← doc.splitText prev (t.bytes - run.bytes)
          return (doc, if halves.isSome then index + 1 else index, run)
        | none => .ok (doc, index, [])
      | none => .ok (doc, index, [])
    else .ok (doc, index, [])

/-- A markup comment on a line of its own, in front of the siblings that share the target's
line. -/
def attachAmongSiblings (o : AnnotateOptions) (doc : Document) (parent target : NodeId)
    (line : Nat) (rule : Text) : Except Fault (Document × Resolution) := do
  if !(doc.kind parent).hasMarkupChildren then
    return (doc, .skipped .noMarkupChildren)
  let (doc, own) := match doc.commentSlot target with
    | some slot => doc.mergeInto slot .inner rule
    | none => (doc, .notADirective)
  if let some r := Resolution.ofMerge own then
    return (doc, r)
  let doc ← doc.segmentChildren parent target
  match doc.markupRange parent, (doc.children parent).findIdx? (· == target) with
  | some (start, stop), some position =>
    if position < start || stop ≤ position then
      return (doc, .skipped .noMarkupChildren)
    let cs := doc.children parent
    let index := doc.groupStart line ((cs.take position).drop start).reverse position position
    let (doc, result) := doc.mergeBefore parent index rule
    if let some r := Resolution.ofMerge result then
      return (doc, r)
    let (doc, index, indent) ← doc.indentBefore cs start index position
    let (doc, hole) := doc.newMarkupComment (directiveText o .nextLine rule .block)
    let (doc, newline) := doc.newText (doc.eol.text ++ indent)
    return (doc.insertChildren parent index [hole, newline], .inserted)
  | _, _ => return (doc, .skipped .noMarkupChildren)

def annotateNode (o : AnnotateOptions) (doc : Document) (id : NodeId) (parent : Option NodeId)
    (line : Nat) (rule : Text) : Except Fault (Document × Resolution) :=
  match doc.kind id, parent with
  | .closingTag, some element => .ok (attachBeforeClosing o doc element rule)
  | .attribute, _ => .ok (attachOrdinary o doc id rule)
  | _, some p =>
    if doc.kind p != .hole && (doc.kind p).isMarkup then
      attachAmongSiblings o doc p id line rule
    else .ok (attachOrdinary o doc id rule)
  | _, none => .ok (attachOrdinary o doc id rule)

/-- Suppress a rule on a line. -/
def annotateOne (o : AnnotateOptions) (doc : Document) (line : Nat) (rule : Text) :
    Except Fault (Document × Resolution) :=
  match doc.locate line with
  | none => .ok (doc, .skipped .noNodeOnLine)
  | some (.blockTail block) => .ok (attachToBlockTail o doc block rule)
  | some (.node id parent) => annotateNode o doc id parent line rule

def annotateFrom (o : AnnotateOptions) (doc : Document) (summary : Summary) :
    List Diagnostic → Except Fault (Document × Summary)
  | [] => .ok (doc, summary)
  | d :: ds =>
    match d.actionableRule with
    | none => annotateFrom o doc summary ds
    | some rule =>
      if o.allows rule then do
        let (doc, r) ← doc.annotateOne o d.line rule
        annotateFrom o doc (summary.record d.line rule r) ds
      else annotateFrom o doc summary ds

def annotate (o : AnnotateOptions) (doc : Document) (ds : List Diagnostic) :
    Except Fault (Document × Summary) :=
  doc.annotateFrom o {} ds

end Document
end Quell
