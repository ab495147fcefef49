import Quell.Run

/-!
The part of a file system that a run asks for. A folder is known by the files that were looked up
below it, so a scan sees those that the command line or the report names and no others.
-/
namespace Quell
namespace Snapshot

def upwards : Nat → Text → List Text
  | 0, _ => []
  | fuel + 1, folder =>
    folder :: match Path.parent? folder with
      | some parent => upwards fuel parent
      | none => []

def asked (folder : Text) (a : SuppressArgs) : List Text :=
  (upwards (folder.length + 1) folder).flatMap
      (fun f => [Path.join f ConfigFile.name, Path.join f ConfigFile.repositoryMark])
    ++ (Scan.ignoreFiles ++ a.report.toList ++ a.paths).map (Path.join folder)

def argumentsOf : Option Command → SuppressArgs
  | some (.suppress a) => a
  | _ => {}

def reported (disk : Disk) (folder : Text) (a : SuppressArgs) : List Text :=
  match a.report.map fun path => readReport disk (Path.join folder path) with
  | some (.ok results) => results.map (·.1)
  | _ => []

/-- Put an entry in unless one is there. The names are given backwards. -/
def keep (disk : Disk) (names : List Text) (e : Entry) : Disk :=
  if (disk.follow Disk.maxLinks [] names.reverse).toOption.isSome then disk else disk.put names.reverse e

/-- Put an entry where names lead from a place. A name that leads upwards leaves a folder. -/
def place (e : Entry) (disk : Disk) (here : List Text) : List Text → Disk
  | [] => keep disk here e
  | name :: rest =>
    if name = ['.', '.'] then place e (keep disk here (.folder [])) here.tail rest
    else place e disk (name :: here) rest

def add (disk : Disk) (path : Text) (e : Entry) : Disk := place e disk [] (Path.names path)

/-- Files of the second disk that the first one lacks or holds with another text. -/
def changes (before after : Disk) : List (Text × Text) :=
  let old := before.root.files []
  (after.root.files []).filterMap fun (names, content) =>
    match after.textOf content with
    | none => none
    | some text =>
      if (old.lookup names).bind before.textOf = some text then none
      else some (names.flatMap ('/' :: ·), text)

end Snapshot
end Quell
