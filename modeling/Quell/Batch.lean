import Quell.Lint
import Quell.Source

/-!
Many files at once. A file counts only if the linter knows it and something was to be done.
-/
namespace Quell

structure FileReport where
  path : Text
  /-- The text before. -/
  source : Text
  outcome : Outcome
  deriving Repr, Inhabited

structure FileError where
  path : Text
  reason : Text
  deriving DecidableEq, Repr, Inhabited

structure Batch where
  reports : List FileReport := []
  parseErrors : List FileError := []
  readErrors : List FileError := []
  deriving Repr, Inhabited

namespace Batch

def changed (b : Batch) : List FileReport := b.reports.filter (·.outcome.text.isSome)

def addFile (disk : Disk) (lint : LintResults) (options : AnnotateOptions) (b : Batch)
    (path : Text) : Except Fault Batch :=
  match lint.of? (disk.canonical path) with
  | none => .ok b
  | some ds =>
    match disk.read path with
    | .error e => .ok { b with readErrors := b.readErrors ++ [⟨path, e.message⟩] }
    | .ok source =>
      match annotateSource options path source ds with
      | .error e => .error e
      | .ok none => .ok { b with parseErrors := b.parseErrors ++ [⟨path, unreadable path⟩] }
      | .ok (some outcome) =>
        if outcome.text.isNone && outcome.summary = {} then .ok b
        else .ok { b with reports := b.reports ++ [⟨path, source, outcome⟩] }

def run (disk : Disk) (lint : LintResults) (options : AnnotateOptions) (files : List Text) :
    Except Fault Batch :=
  files.foldlM (addFile disk lint options) {}

def writeFrom (n : Nat) (disk : Disk) : List FileReport → Disk × Except Failure Nat
  | [] => (disk, .ok n)
  | r :: rest =>
    match r.outcome.text with
    | none => writeFrom n disk rest
    | some text =>
      match disk.write r.path text with
      | .error e => (disk, .error (.unwritable r.path e))
      | .ok disk => writeFrom (n + 1) disk rest

def write (b : Batch) (disk : Disk) : Disk × Except Failure Nat := writeFrom 0 disk b.reports

end Batch
end Quell
