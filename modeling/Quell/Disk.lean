import Quell.Path

/-!
A file system as a tree of named entries. A path is followed name by name, so a name that leads
upwards undoes the name before it only if that one is a folder. A file may lie at several places, and
a symbolic link leads to another one.
-/
namespace Quell

inductive Content where
  | text (value : Text)
  /-- Bytes that are no text. -/
  | binary
  /-- What the disk knows by this number, for a file at several places. -/
  | shared (number : Nat)
  deriving DecidableEq, Repr, Inhabited

inductive Entry where
  | file (content : Content)
  | folder (entries : List (Text × Entry))
  /-- A symbolic link. -/
  | link (target : Text)
  deriving Repr, Inhabited

inductive DiskError where
  | missing
  | notFolder
  | isFolder
  | notText
  | looped
  deriving DecidableEq, Repr, Inhabited

namespace DiskError

def message : DiskError → Text
  | missing => "No such file or directory (os error 2)".toList
  | notFolder => "Not a directory (os error 20)".toList
  | isFolder => "Is a directory (os error 21)".toList
  | notText => "stream did not contain valid UTF-8".toList
  | looped => "Too many levels of symbolic links (os error 40)".toList

end DiskError

namespace Entry

def isFolder : Entry → Bool
  | folder _ => true
  | _ => false

/-- Put an entry at the end of a list of names; folders on the way are made. -/
def put (new : Entry) : List Text → Entry → Entry
  | [], _ => new
  | name :: rest, old =>
    let entries := match old with
      | folder es => es
      | _ => []
    match entries.lookup name with
    | some e =>
      folder (entries.map fun (n, e') => if n = name then (n, put new rest e) else (n, e'))
    | none => folder (entries ++ [(name, put new rest (folder []))])

mutual

/-- Every file below an entry, with the names that lead to it. -/
def files (names : List Text) : Entry → List (List Text × Content)
  | file content => [(names, content)]
  | folder entries => filesOf names entries
  | link _ => []

def filesOf (names : List Text) : List (Text × Entry) → List (List Text × Content)
  | [] => []
  | (name, e) :: rest => files (names ++ [name]) e ++ filesOf names rest

end

end Entry

/-- The folder that everything lies below, and the text of each file at several places, unless it is
none. -/
structure Disk where
  root : Entry := .folder []
  shared : Nat → Option Text := fun _ => none
  deriving Inhabited

namespace Disk

abbrev Trail := List (Text × Entry)

def Trail.names (t : Trail) : List Text := (t.map (·.1)).reverse

/-- The path of an entry, written in full. -/
def Trail.path (t : Trail) : Text :=
  match t.names with
  | [] => ['/']
  | names => names.flatMap ('/' :: ·)

def entryAt (disk : Disk) (t : Trail) : Entry := (t.head?.map (·.2)).getD disk.root

def stepsOf (path : Text) : List Text :=
  (Text.splitOn '/' path).filter (!·.isEmpty)
    ++ if path.getLast? = some '/' then [['.']] else []

def walk (disk : Disk) (jump : Trail → Text → List Text → Except DiskError Trail) :
    Trail → List Text → Except DiskError Trail
  | t, [] => .ok t
  | t, name :: rest =>
    match disk.entryAt t with
    | .folder entries =>
      if name = ['.'] then walk disk jump t rest
      else if name = ['.', '.'] then walk disk jump t.tail rest
      else match entries.lookup name with
        | some (.link target) => jump t target rest
        | some e => walk disk jump ((name, e) :: t) rest
        | none => .error .missing
    | _ => .error .notFolder

def maxLinks : Nat := 40

def follow (disk : Disk) : Nat → Trail → List Text → Except DiskError Trail
  | 0 => disk.walk fun _ _ _ => .error .looped
  | links + 1 => disk.walk fun t target rest =>
    if target.isEmpty then .error .missing
    else follow disk links (if Path.isAbsolute target then [] else t) (stepsOf target ++ rest)

def find (disk : Disk) (path : Text) : Except DiskError Trail :=
  if Path.isAbsolute path then disk.follow maxLinks [] (stepsOf path) else .error .missing

def entry? (disk : Disk) (path : Text) : Option Entry :=
  (disk.find path).toOption.map disk.entryAt

def holds (disk : Disk) (path : Text) : Bool := (disk.entry? path).isSome

def canonical (disk : Disk) (path : Text) : Text :=
  match disk.find path with
  | .ok t => t.path
  | .error _ => path

def textOf (disk : Disk) : Content → Option Text
  | .text value => some value
  | .binary => none
  | .shared number => disk.shared number

/-- The text of a file. -/
def read (disk : Disk) (path : Text) : Except DiskError Text :=
  match disk.find path with
  | .error e => .error e
  | .ok t =>
    match disk.entryAt t with
    | .file content =>
      match disk.textOf content with
      | some value => .ok value
      | none => .error .notText
    | _ => .error .isFolder

def put (disk : Disk) (names : List Text) (e : Entry) : Disk :=
  { disk with root := Entry.put e names disk.root }

def fill (disk : Disk) (names : List Text) (text : Text) : Content → Disk
  | .shared number => { disk with shared := fun n => if n = number then some text else disk.shared n }
  | _ => disk.put names (.file (.text text))

/-- Write a new file into a folder that is there. The path is seen from an entry, and a link in its
place leads on. -/
def create (disk : Disk) (text : Text) : Nat → Trail → Text → Except DiskError Disk
  | links, t, path =>
    match Path.parent? path, Path.fileName? path with
    | some folder, some name =>
      match disk.follow maxLinks (if Path.isAbsolute path then [] else t) (stepsOf folder) with
      | .error e => .error e
      | .ok u =>
        match disk.entryAt u with
        | .folder entries =>
          match entries.lookup name, links with
          | some (.link target), links + 1 => create disk text links u target
          | some (.link _), 0 => .error .looped
          | _, _ => .ok (disk.put (u.names ++ [name]) (.file (.text text)))
        | _ => .error .notFolder
    | _, _ => .error .missing

def write (disk : Disk) (path text : Text) : Except DiskError Disk :=
  match disk.find path with
  | .ok t =>
    match disk.entryAt t with
    | .file content => .ok (disk.fill t.names text content)
    | _ => .error .isFolder
  | .error _ =>
    if Path.isAbsolute path then disk.create text maxLinks [] path else .error .missing

end Disk
end Quell
