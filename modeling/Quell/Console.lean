import Quell.Batch
import Quell.CommandLine
import Quell.Text.Columns

/-!
What a run shows: a summary, the diagnostics that found no place with the line they are about, the
files that could not be handled, and why a run failed or was refused.
-/
namespace Quell
namespace Console

def successMark : Text := "\u2713".toList
def failureMark : Text := "\u2718".toList

def line (words : Text) : Text := words ++ ['\n']

structure FileChange where
  path : Text
  inserted : Nat
  merged : Nat
  deriving DecidableEq, Repr, Inhabited

structure Totals where
  checked : Nat := 0
  inserted : Nat := 0
  merged : Nat := 0
  alreadySuppressed : Nat := 0
  /-- Changes were written. -/
  applied : Bool := false
  files : List FileChange := []
  deriving DecidableEq, Repr, Inhabited

def Totals.add (folder : Text) (t : Totals) (r : FileReport) : Totals :=
  let s := r.outcome.summary
  { t with
    inserted := t.inserted + s.inserted
    merged := t.merged + s.merged
    alreadySuppressed := t.alreadySuppressed + s.alreadySuppressed
    files := if r.outcome.text.isSome then
        t.files ++ [⟨Path.shown folder r.path, s.inserted, s.merged⟩]
      else t.files }

def Totals.of (b : Batch) (checked : Nat) (applied : Bool) (folder : Text) : Totals :=
  b.reports.foldl (Totals.add folder) { checked, applied }

/-! The summary. -/

def nothingToDo (t : Totals) : Text :=
  line (successMark ++ " Checked ".toList ++ Text.ofNat t.checked ++ " source ".toList
    ++ (if t.checked = 1 then "file" else "files").toList ++ " - nothing to suppress".toList
    ++ (if t.alreadySuppressed = 0 then []
        else " (".toList ++ Text.ofNat t.alreadySuppressed ++ " already suppressed)".toList))

def counts (t : Totals) : Text :=
  Text.ofNat t.inserted ++ " comment(s), ".toList
    ++ (if t.applied then "updated " else "update ").toList ++ Text.ofNat t.merged
    ++ " comment(s) in ".toList ++ Text.ofNat t.files.length ++ " file(s)".toList

def changeLine (c : FileChange) : Text :=
  line ("  - ".toList ++ c.path ++ ": ".toList ++ Text.ofNat c.inserted ++ " new, ".toList
    ++ Text.ofNat c.merged ++ " updated".toList)

def summary (t : Totals) : Text :=
  if t.files.isEmpty then nothingToDo t
  else if t.applied then line ("Inserted ".toList ++ counts t)
  else
    line ("Would insert ".toList ++ counts t ++ [':']) ++ t.files.flatMap changeLine
      ++ line "Run with --apply to write these comments.".toList

/-! Diagnostics without a place. -/

def tabWidth : Nat := 4

def expandTabs (t : Text) : Text :=
  t.flatMap fun c => if c == '\t' then List.replicate tabWidth ' ' else [c]

def padLeft (width : Nat) (t : Text) : Text := List.replicate (width - t.length) ' ' ++ t

def sourceLine (source : Text) (number width : Nat) : Text :=
  let expanded := expandTabs source
  let content := expanded.trimStart
  let indent := Text.columns (expanded.take (expanded.length - content.length))
  let marks := max 1 (Text.columns content.trimEnd)
  line (padLeft width [] ++ " |".toList)
    ++ line (padLeft width (Text.ofNat number) ++ " | ".toList ++ expanded.trimEnd)
    ++ line (padLeft width [] ++ " | ".toList ++ List.replicate indent ' '
      ++ List.replicate marks '^')

def lineAt? (lines : List Text) : Nat → Option Text
  | 0 => none
  | n + 1 => lines[n]?

def skippedNote (lines : List Text) (path : Text) (width : Nat) (s : Skipped) : Text :=
  line ("warning: could not suppress \"".toList ++ s.rule ++ "\"  ".toList ++ s.reason.description)
    ++ line ("  --> ".toList ++ path ++ ':' :: Text.ofNat s.line)
    ++ (match lineAt? lines s.line with
      | some source => sourceLine source s.line width
      | none => [])
    ++ line []

def skippedNotes (folder : Text) (r : FileReport) : Text :=
  let skipped := r.outcome.summary.skipped
  let width := (skipped.map fun s => (Text.ofNat s.line).length).foldl max 0
  skipped.flatMap (skippedNote r.source.lines (Path.shown folder r.path) width)

def unplaced (folder : Text) (reports : List FileReport) : Text :=
  let total := (reports.flatMap fun r => r.outcome.summary.skipped).length
  reports.flatMap (skippedNotes folder)
    ++ if total = 0 then []
      else line (failureMark ++ ' ' :: Text.ofNat total ++ " diagnostic(s) left unsuppressed".toList)

/-! Files that could not be handled. -/

def errorLine (folder : Text) (e : FileError) : Text :=
  line ("error: ".toList ++ Path.shown folder e.path ++ ": ".toList ++ e.reason)

def fileErrors (what : String) (errors : List FileError) (folder : Text) (verbose : Bool) : Text :=
  if errors.isEmpty then []
  else if verbose then errors.flatMap (errorLine folder)
  else line ("warning: ".toList ++ Text.ofNat errors.length ++ " file(s) could not be ".toList
    ++ what.toList ++ " (use -v for details)".toList)

def usage : Text :=
  ("Insert ESLint suppression directives for existing violations in JS/TS/JSX code\n\n" ++
   "Usage: hushlint [COMMAND]\n\n" ++
   "Commands:\n" ++
   "  suppress  Insert eslint-disable comments so that existing lint errors stop failing the build\n" ++
   "  init      Initialize a new .hushlintrc.json configuration file\n" ++
   "  serve     Start MCP server for AI coding agents\n" ++
   "  help      Print this message or the help of the given subcommand(s)\n\n" ++
   "Options:\n" ++
   "  -h, --help     Print help\n" ++
   "  -V, --version  Print version\n").toList

def version : Text := "hushlint 0.1.0\n".toList

def answer? : UsageError → Option Text
  | .displayHelp => some usage
  | .displayVersion => some version
  | _ => none

def refusal (e : UsageError) : Text :=
  let reason := match e with
    | .unknownArgument => "unexpected argument"
    | .invalidSubcommand => "unrecognized subcommand"
    | .argumentConflict => "an option is given twice"
    | .invalidValue => "a value is missing or not allowed"
    | .tooManyValues => "an option takes no value"
    | .displayHelp | .displayVersion => "a question"
  line ("error: ".toList ++ reason.toList) ++ ['\n'] ++ line "Usage: hushlint [COMMAND]".toList

/-! Failures. -/

def cause : Cause → Text
  | .malformed => "malformed JSON".toList
  | .detail text => text

def failure (f : Failure) : Text :=
  line ("Error: ".toList ++ Text.joinWith ": ".toList (f.message :: f.causes.map cause))

def fault : Fault → Text
  | .outsideText => line "Error: a range lies outside the text".toList
  | .textMismatch => line "Error: fragments do not add up to their text".toList

def faultCode : Nat := 101

end Console
end Quell
