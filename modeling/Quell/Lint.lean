import Quell.Diagnostic
import Quell.Failure
import Quell.Json.Read

/-!
Where diagnostics come from: a report that was saved earlier, or the linter of the project.
-/
namespace Quell

abbrev LintResults := List (Text × List Diagnostic)

namespace LintResults

/-- Diagnostics of a file, if it was looked at. -/
def of? (r : LintResults) (key : Text) : Option (List Diagnostic) := r.lookup key

/-- Add diagnostics to those of a file. -/
def add (key : Text) (ds : List Diagnostic) : LintResults → LintResults
  | [] => [(key, ds)]
  | (k, old) :: rest => if k = key then (k, old ++ ds) :: rest else (k, old) :: add key ds rest

def set (key : Text) (ds : List Diagnostic) : LintResults → LintResults
  | [] => [(key, ds)]
  | (k, old) :: rest => if k = key then (k, ds) :: rest else (k, old) :: set key ds rest

def override (r new : LintResults) : LintResults := new.foldl (fun r (k, ds) => r.set k ds) r

end LintResults

/-! Reports. -/

/-- What a report says about one file. -/
structure FileResult where
  path : Text
  messages : List Diagnostic
  deriving DecidableEq, Repr, Inhabited

def FileResult.ofJson? (j : Json) : Option FileResult :=
  match Json.record? [⟨"filePath", false⟩, ⟨"messages", true⟩] j with
  | some [path, messages] => do
    return ⟨← Json.required Json.text? path,
      ← Json.defaulted [] (Json.list? Diagnostic.ofJson?) messages⟩
  | _ => none

/-- The results in the text of a report, whose paths are seen from a folder. -/
def parseReport (disk : Disk) (folder text : Text) : Except Failure LintResults :=
  match (Json.read? text).bind (Json.list? FileResult.ofJson?) with
  | none => .error .malformedReport
  | some files =>
    .ok (files.foldl (fun r f => r.add (disk.canonical (Path.join folder f.path)) f.messages) [])

def readReport (disk : Disk) (path : Text) : Except Failure LintResults :=
  match disk.read path with
  | .error e => .error (.unreadableReport path e)
  | .ok text => parseReport disk ((Path.parent? path).getD ['.']) text

/-! The linter. -/

/-- A call of the linter. -/
structure Call where
  folder : Text
  arguments : List Text
  deriving DecidableEq, Repr, Inhabited

/-- What a program wrote and how it ended. -/
structure Output where
  ending : Ending := .exited 0
  stdout : Text := []
  stderr : Text := []
  deriving DecidableEq, Repr, Inhabited

abbrev Tool := Option (Call → Output)

/-- Files for one call, so that command lines stay short. -/
def filesPerCall : Nat := 200

/-- Files in groups of a size. The first argument bounds the number of groups. -/
def chunks (size : Nat) : Nat → List Text → List (List Text)
  | 0, _ => []
  | _ + 1, [] => []
  | fuel + 1, files => files.take size :: chunks size fuel (files.drop size)

def lintCall (folder : Text) (baseConfig : Option Text) (files : List Text) : Call :=
  let settings := match baseConfig with
    | some config => ["--config".toList, config]
    | none => []
  ⟨folder, ["--no-install", "eslint", "--format", "json"].map String.toList ++ settings ++ files⟩

def Ending.isRegular : Ending → Bool
  | .exited code => code = 0 || code = 1
  | .killed _ => false

def resultOf (disk : Disk) (folder : Text) (out : Output) : Except Failure LintResults :=
  if out.ending.isRegular then parseReport disk folder out.stdout
  else .error (.brokenLinter out.ending out.stderr)

def runCalls (disk : Disk) (folder : Text) (tool : Tool) (r : LintResults) :
    List Call → List Call × Except Failure LintResults
  | [] => ([], .ok r)
  | call :: rest =>
    match tool with
    | none => ([], .error .missingLinter)
    | some run =>
      match resultOf disk folder (run call) with
      | .error e => ([call], .error e)
      | .ok new =>
        let (calls, results) := runCalls disk folder tool (r.override new) rest
        (call :: calls, results)

/-- Run the linter of the project on files. -/
def runLinter (disk : Disk) (tool : Tool) (folder : Text) (baseConfig : Option Text)
    (files : List Text) : List Call × Except Failure LintResults :=
  runCalls disk folder tool []
    ((chunks filesPerCall files.length files).map (lintCall folder baseConfig))

end Quell
