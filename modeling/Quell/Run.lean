import Quell.CommandLine
import Quell.ConfigFile
import Quell.Console
import Quell.Scan

/-!
Running a command in a folder of a disk.
-/
namespace Quell

/-- What a run starts from. -/
structure World where
  disk : Disk
  /-- The folder that the command runs in. -/
  folder : Text
  tool : Tool := none

/-- What a run leaves behind. -/
structure RunResult where
  stdout : Text := []
  stderr : Text := []
  disk : Disk
  calls : List Call := []
  status : Except Failure ExitStatus

namespace World

def quiet (w : World) (stderr : Text) (status : Except Failure ExitStatus) : RunResult :=
  { stderr, disk := w.disk, status }

def runInit (w : World) : RunResult :=
  let path := Path.join w.folder ConfigFile.name
  if w.disk.holds path then
    w.quiet (Console.line ("error: ".toList ++ ConfigFile.name ++ " already exists".toList))
      (.ok .failure)
  else
    match w.disk.write path (Console.line Config.defaultText) with
    | .error e => w.quiet [] (.error (.unwritable (Path.join ['.'] ConfigFile.name) e))
    | .ok disk =>
      { stdout := Console.line (Console.successMark ++ " Created ".toList ++ ConfigFile.name)
        disk, status := .ok .success }

def override (c : Config) (a : SuppressArgs) : Config :=
  { c with
    message := a.message.getD c.message
    rules := (a.rules.map ruleList).getD c.rules
    inline := c.inline || a.inline
    baseConfig := a.baseConfig.orElse fun _ => c.baseConfig }

/-- Diagnostics from the report, or from the linter if there is none. -/
def lint (w : World) (c : Config) (a : SuppressArgs) (files : List Text) :
    List Call × Except Failure LintResults :=
  match a.report with
  | some path => ([], readReport w.disk (Path.join w.folder path))
  | none => runLinter w.disk w.tool w.folder c.baseConfig files

def finish (w : World) (a : SuppressArgs) (files : List Text) (batch : Batch) : RunResult :=
  let (disk, written) := if a.apply then batch.write w.disk else (w.disk, .ok 0)
  match written with
  | .error e => { disk, status := .error e }
  | .ok _ =>
    let totals := Console.Totals.of batch files.length a.apply w.folder
    let failed := !batch.readErrors.isEmpty || !batch.parseErrors.isEmpty
    { stdout := Console.unplaced w.folder batch.reports ++ Console.summary totals
      stderr := Console.fileErrors "read" batch.readErrors w.folder a.verbose
        ++ Console.fileErrors "parsed" batch.parseErrors w.folder a.verbose
      disk
      status := .ok (.ofSuppress failed (!totals.files.isEmpty) a.apply) }

def suppressFiles (w : World) (c : Config) (a : SuppressArgs) (files : List Text) :
    Except Fault RunResult :=
  let note := if a.verbose then
      Console.line ("Linting ".toList ++ Text.ofNat files.length ++ " file(s)".toList)
    else []
  let (calls, results) := w.lint c a files
  match results with
  | .error e => .ok { w.quiet note (.error e) with calls }
  | .ok results =>
    (Batch.run w.disk results c.annotateOptions files).map fun batch =>
      let r := w.finish a files batch
      { r with stderr := note ++ r.stderr, calls }

def runSuppress (w : World) (a : SuppressArgs) : Except Fault RunResult :=
  match ConfigFile.load w.disk w.folder with
  | .error e => .ok (w.quiet [] (.error e))
  | .ok loaded =>
    let note := if a.verbose && !loaded.fromFile then
        Console.line ("note: no ".toList ++ ConfigFile.name ++ " found, using defaults".toList)
      else []
    let config := override loaded.config a
    match config.check with
    | .error flaw => .ok (w.quiet note (.error (.flawedConfig flaw)))
    | .ok () =>
      let scan := Scan.run w.disk w.folder a.paths config.ignores config.useIgnoreFiles a.verbose
      let stderr := note ++ scan.notes
      if scan.files.isEmpty then
        .ok { w.quiet stderr (.ok .success) with stdout := Console.summary {} }
      else (w.suppressFiles config a scan.files).map fun r => { r with stderr := stderr ++ r.stderr }

/-- Run a command; without one, show how to use the program. -/
def run (w : World) : Option Command → Except Fault RunResult
  | none => .ok { w.quiet [] (.ok .success) with stdout := Console.usage }
  | some .init => .ok w.runInit
  | some .serve => .ok (w.quiet [] (.error .misplacedService))
  | some (.suppress a) => w.runSuppress a

end World
end Quell
