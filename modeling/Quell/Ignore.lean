import Quell.Glob.Match
import Quell.Path
import Quell.Text.Blank
import Quell.Text.Lines

/-!
Lists of paths to ignore, one pattern a line. A pattern with a slash in it is tied to the folder of
the list, any other matches at every depth; a slash at the end keeps it to folders, and an
exclamation mark in front lets paths pass. The last pattern that matches decides.
-/
namespace Quell

structure IgnoreRule where
  glob : Glob
  /-- It lets paths pass. -/
  passes : Bool
  foldersOnly : Bool
  deriving Repr, Inhabited

structure BadPattern where
  line : Text
  error : GlobError
  deriving DecidableEq, Repr, Inhabited

def BadPattern.message (b : BadPattern) : Text :=
  "error parsing glob '".toList ++ b.line ++ "': ".toList ++ b.error.message

inductive Verdict where
  | ignored
  | passed
  deriving DecidableEq, Repr, Inhabited

namespace IgnoreRule

/-- Cut the marks off the front of a line: whether it lets paths pass, whether it is tied to its
folder, and the rest. A backslash takes the meaning from the first mark. -/
def front : Text → Bool × Bool × Text
  | '\\' :: '!' :: cs => (false, false, '!' :: cs)
  | '\\' :: '#' :: cs => (false, false, '#' :: cs)
  | '!' :: '/' :: cs => (true, true, cs)
  | '!' :: cs => (true, false, cs)
  | '/' :: cs => (false, true, cs)
  | cs => (false, false, cs)

/-- Cut off a slash at the end, and a backslash before it. -/
def back (cs : Text) : Bool × Text :=
  match Text.dropLast? '/' cs with
  | some cs => (true, (Text.dropLast? '\\' cs).getD cs)
  | none => (false, cs)

/-- The pattern in full: one without a slash may stand at any depth, and one that ends in two stars
does not match the folder itself. -/
def spelled (tied : Bool) (cs : Text) : Text :=
  let deep := if tied || cs.contains '/' || cs = ['*', '*'] then cs else '*' :: '*' :: '/' :: cs
  if Text.startsWith ['*', '*', '/'] deep.reverse then deep ++ ['/', '*'] else deep

/-- Blanks at the end do not count, unless a backslash stands before the last one. -/
def trimmed (line : Text) : Text :=
  if Text.startsWith [' ', '\\'] line.reverse then line else line.trimEnd

def parse (lenient : Bool) (line : Text) : Except BadPattern (Option IgnoreRule) :=
  if Text.startsWith ['#'] line then .ok none
  else if (trimmed line).isEmpty then .ok none
  else
    let (passes, tied, cs) := front (trimmed line)
    let (foldersOnly, cs) := back cs
    match Glob.parse lenient (spelled tied cs) with
    | .error e => .error ⟨trimmed line, e⟩
    | .ok glob => .ok (some ⟨glob, passes, foldersOnly⟩)

def covers (r : IgnoreRule) (path : Text) (isFolder : Bool) : Bool :=
  (!r.foldersOnly || isFolder) && r.glob.accepts path

/-- The rule that excludes what a pattern matches. Such rules stand in a list that says what to
take, so an exclamation mark is put in front. -/
def exclusion (pattern : Text) : Except BadPattern (Option IgnoreRule) := parse false ('!' :: pattern)

end IgnoreRule

abbrev IgnoreList := List IgnoreRule

namespace IgnoreList

def verdict (rules : IgnoreList) (path : Text) (isFolder : Bool) : Option Verdict :=
  (rules.reverse.find? (·.covers path isFolder)).map fun r =>
    if r.passes then .passed else .ignored

/-- What the rules say of a path or else of the nearest folder above it that they speak of. The
first argument bounds the number of folders. -/
def verdictAbove (rules : IgnoreList) : Nat → Text → Bool → Option Verdict
  | 0, path, isFolder => rules.verdict path isFolder
  | fuel + 1, path, isFolder =>
    match rules.verdict path isFolder with
    | some v => some v
    | none =>
      match Path.parent? path with
      | some folder => verdictAbove rules fuel folder true
      | none => none

/-- The path or a folder above it is ignored. -/
def ignores (rules : IgnoreList) (path : Text) (isFolder : Bool) : Bool :=
  rules.verdictAbove path.length path isFolder = some .ignored

def unmarkedLines (text : Text) : List Text :=
  match text.lines with
  | first :: rest => first.dropWhile (· == '\uFEFF') :: rest
  | [] => []

def ofLines : Nat → List Text → IgnoreList × List (Nat × BadPattern)
  | _, [] => ([], [])
  | n, line :: rest =>
    let (rules, bad) := ofLines (n + 1) rest
    match IgnoreRule.parse true line with
    | .error e => (rules, (n, e) :: bad)
    | .ok none => (rules, bad)
    | .ok (some r) => (r :: rules, bad)

def ofText (text : Text) : IgnoreList × List (Nat × BadPattern) := ofLines 1 (unmarkedLines text)

def hasNegation (text : Text) : Bool := text.lines.any (Text.startsWith ['!'])

end IgnoreList
end Quell
