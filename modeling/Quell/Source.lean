import Quell.Annotate
import Quell.Document.Attach
import Quell.Document.Print
import Quell.Grammar.Program
import Quell.Path

/-!
From the text of a source file to a document, and from diagnostics to a new text.

Offsets are counted from the first character that is read. A byte order mark in front is not read,
so in a file that has one all offsets are three bytes too low.
-/
namespace Quell

open Grammar

def Dialect.ofPath (path : Text) : Dialect :=
  match Path.extension? path with
  | some ext =>
    if ext = "tsx".toList then ⟨true, true⟩
    else if ext ∈ ["ts", "mts", "cts"].map String.toList then ⟨true, false⟩
    else ⟨false, true⟩
  | none => ⟨false, true⟩

/-- A text with the start of each of its lines. -/
structure Source where
  text : Text
  lines : LineIndex
  deriving Repr, Inhabited

namespace Source

def of (text : Text) : Source := ⟨text, LineIndex.of text⟩

def span (s : Source) (lo hi : Nat) : Span := ⟨lo, hi, s.lines.lineOf lo, s.lines.lineOf hi⟩

/-- The text without a byte order mark. -/
def unmarked : Text → Text
  | '\uFEFF' :: cs => cs
  | cs => cs

end Source

def Grammar.Label.kind? : Label → Option NodeKind
  | .shown kind => some kind
  | .expr _ => some .expression
  | .pattern _ => some .part
  | .entry _ => some .part
  | .group | .hidden | .spread | .elision => none

namespace Document

def addChild (doc : Document) (parent : NodeId) (kind : NodeKind) (span : Span) :
    Document × NodeId :=
  let (doc, id) := doc.alloc kind (some span)
  (doc.appendChild parent id, id)

def withValue (s : Source) (lo hi : Nat) (kind : NodeKind) : Except Fault NodeKind :=
  match kind with
  | .text _ =>
    match Text.slice? lo hi s.text with
    | some value => .ok (.text value)
    | none => .error .outsideText
  | kind => .ok kind

mutual

def plant (s : Source) (parent : NodeId) (doc : Document) : Term → Except Fault Document
  | .mk .hidden _ _ [.mk _ _ _ ps] => plantAll s parent doc ps
  | .mk label lo hi ps =>
    match label.kind? with
    | none => plantAll s parent doc ps
    | some kind =>
      match withValue s lo hi kind with
      | .error e => .error e
      | .ok kind =>
        let (doc, id) := doc.addChild parent kind (s.span lo hi)
        plantAll s id doc ps

def plantAll (s : Source) (parent : NodeId) (doc : Document) : List Term → Except Fault Document
  | [] => .ok doc
  | t :: ts =>
    match plant s parent doc t with
    | .error e => .error e
    | .ok doc => plantAll s parent doc ts

end

def ofProgram (s : Source) (p : Program) : Except Fault Document := do
  let start := new (some (s.span 0 s.text.bytes)) (LineEnding.detect s.text)
  let doc ← plantAll s root start p.terms
  let raws := p.remarks.map fun r => ⟨r.kind, r.text, s.span r.lo r.hi⟩
  return doc.sortChildren.attachAll raws

/-- Read a source file. There is no document if the text is not in the language. -/
def read? (path text : Text) : Except Fault (Option Document) :=
  match Program.read? (Dialect.ofPath path) (Source.unmarked text) with
  | none => .ok none
  | some p => (ofProgram (Source.of text) p).map some

end Document

def unreadable (path : Text) : Text := "Failed to parse ".toList ++ path

structure Outcome where
  summary : Summary := {}
  /-- The new text, if anything was added. -/
  text : Option Text := none
  deriving DecidableEq, Repr, Inhabited

/-- Annotate a source text. It is read only if a diagnostic asks for something; there is no outcome
if it cannot be read. -/
def annotateSource (options : AnnotateOptions) (path text : Text) (ds : List Diagnostic) :
    Except Fault (Option Outcome) := do
  if !(ds.filterMap Diagnostic.actionableRule).any options.allows then return some {}
  match ← Document.read? path text with
  | none => return none
  | some doc =>
    let (doc, summary) ← doc.annotate options ds
    if summary.changed then return some ⟨summary, some (← doc.print text)⟩
    else return some ⟨summary, none⟩

end Quell
