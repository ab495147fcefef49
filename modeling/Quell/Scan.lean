import Quell.Disk
import Quell.Ignore

/-!
The source files below some paths. Folders of installed packages and of the repository are never
entered; patterns of the configuration and the ignore file of the project leave out more.
-/
namespace Quell

/-- Texts in the order of their bytes, which is that of their characters. -/
def Text.le : Text → Text → Bool
  | [], _ => true
  | _ :: _, [] => false
  | a :: as, b :: bs => a.toNat < b.toNat || a == b && Text.le as bs

def dropRepeats : List Text → List Text
  | a :: b :: rest => if a = b then dropRepeats (b :: rest) else a :: dropRepeats (b :: rest)
  | ts => ts

/-- Files in order without repetition, the number of paths that were not there, and what was said
on the way. -/
structure Scan where
  files : List Text := []
  skipped : Nat := 0
  notes : Text := []
  deriving DecidableEq, Repr, Inhabited

structure Exclusions where
  folder : Text
  patterns : IgnoreList
  listed : IgnoreList
  deriving Repr, Inhabited

namespace Exclusions

def skippedFolders : List Text := ["node_modules", ".git"].map String.toList

/-- A pattern of the configuration excludes what it lets pass, because it stands in a list of what
to take. -/
def leavesOut (x : Exclusions) (inside : Text) (isFolder : Bool) : Bool :=
  x.patterns.verdict inside isFolder = some .passed || x.listed.ignores inside isFolder

def excludes (x : Exclusions) (path : Text) (isFolder : Bool) : Bool :=
  (isFolder && (Path.fileName? path).any skippedFolders.contains) ||
    match Path.below? x.folder path with
    | none => false
    | some inside => !inside.isEmpty && x.leavesOut inside isFolder

end Exclusions

namespace Scan

def warning (words : Text) : Text := "warning: ".toList ++ words ++ ['\n']

def patternRules : List Text → IgnoreList × Text
  | [] => ([], [])
  | p :: ps =>
    let (rules, notes) := patternRules ps
    match IgnoreRule.exclusion p with
    | .ok r => (r.toList ++ rules, notes)
    | .error e =>
      (rules, warning ("Invalid ignore pattern '".toList ++ p ++ "': ".toList ++ e.message) ++ notes)

/-- Ignore files; only the first one that can be read counts. -/
def ignoreFiles : List Text := [".eslintignore", ".gitignore"].map String.toList

def badLine (path : Text) (bad : Nat × BadPattern) : Text :=
  path ++ ": line ".toList ++ Text.ofNat bad.1 ++ ": ".toList ++ bad.2.message

def fileRules (folder name text : Text) : IgnoreList × Text :=
  if IgnoreList.hasNegation text then
    ([], warning ("your ".toList ++ name ++
      " contains negated entries, which are not supported; ignoring it".toList))
  else
    let (rules, bad) := IgnoreList.ofText text
    if bad.isEmpty then (rules, [])
    else (rules, warning ("skipping invalid entries in ".toList ++ name ++ ": ".toList ++
      Text.joinWith ['\n'] (bad.map (badLine (Path.join folder name)))))

def listedRules (disk : Disk) (folder : Text) : List Text → IgnoreList × Text
  | [] => ([], [])
  | name :: rest =>
    match disk.read (Path.join folder name) with
    | .ok text => fileRules folder name text
    | .error _ => listedRules disk folder rest

mutual

/-- Source files in an entry at a path. Links are not followed. -/
def within (x : Exclusions) (path : Text) : Entry → List Text
  | .file _ => if Path.isSource path && !x.excludes path false then [path] else []
  | .folder entries => withinAll x path entries
  | .link _ => []

def withinAll (x : Exclusions) (folder : Text) : List (Text × Entry) → List Text
  | [] => []
  | (name, e) :: rest =>
    let path := Path.join folder name
    (if x.excludes path e.isFolder then [] else within x path e) ++ withinAll x folder rest

end

def roots (disk : Disk) (x : Exclusions) : List Text → List Text × Nat × Text
  | [] => ([], 0, [])
  | path :: rest =>
    let (files, skipped, notes) := roots disk x rest
    match disk.entry? path with
    | some e => (within x path e ++ files, skipped, notes)
    | none =>
      (files, skipped + 1, warning ("Path does not exist: ".toList ++ path) ++ notes)

/-- The source files below the paths, which are seen from a folder; without paths, below the folder
itself. Only a verbose scan tells of paths and patterns that are no good. -/
def run (disk : Disk) (folder : Text) (paths ignores : List Text) (useIgnoreFiles verbose : Bool) :
    Scan :=
  let (patterns, patternNotes) := patternRules ignores
  let (listed, listNotes) := if useIgnoreFiles then listedRules disk folder ignoreFiles else ([], [])
  let starts := if paths.isEmpty then [folder] else paths.map (Path.join folder)
  let (files, skipped, rootNotes) := roots disk ⟨folder, patterns, listed⟩ starts
  { files := dropRepeats (files.mergeSort Text.le)
    skipped
    notes := (if verbose then patternNotes else []) ++ listNotes ++
      (if verbose then rootNotes else []) }

end Scan
end Quell
