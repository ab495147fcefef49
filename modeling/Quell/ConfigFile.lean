import Quell.Failure
import Quell.Json.Read

/-!
The configuration file of a project. It is looked for in a folder and the folders above it, up to
the one that holds the repository.
-/
namespace Quell
namespace ConfigFile

def name : Text := ".hushlintrc.json".toList

def repositoryMark : Text := ".git".toList

def findUpTo (disk : Disk) : Nat → Text → Option Text
  | 0, _ => none
  | fuel + 1, folder =>
    if disk.holds (Path.join folder name) then some (Path.join folder name)
    else if disk.holds (Path.join folder repositoryMark) then none
    else (Path.parent? folder).bind (findUpTo disk fuel)

def find? (disk : Disk) (start : Text) : Option Text := findUpTo disk (start.length + 1) start

structure Loaded where
  config : Config := {}
  fromFile : Bool := false
  deriving DecidableEq, Repr, Inhabited

def readAt (disk : Disk) (path : Text) : Except Failure Config :=
  match disk.read path with
  | .error e => .error (.unreadableConfig path e)
  | .ok text =>
    match (Json.read? text).bind Config.ofJson? with
    | none => .error (.malformedConfig path)
    | some config =>
      match config.check with
      | .error flaw => .error (.flawedConfig flaw)
      | .ok () => .ok config

/-- The configuration for a folder. Without a file all presets hold. -/
def load (disk : Disk) (start : Text) : Except Failure Loaded :=
  match find? disk start with
  | some path => (readAt disk path).map (⟨·, true⟩)
  | none => .ok {}

end ConfigFile
end Quell
