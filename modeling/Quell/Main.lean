import Quell.Snapshot

/-!
The command line. Files are looked up before a run and written behind it; nothing else happens
outside. No other program is started, so diagnostics come from a report.
-/
namespace Quell
namespace Shell

def folderCode : UInt32 := 21

def look (path : Text) : IO (Option Entry) := do
  match ← (IO.FS.readBinFile (String.ofList path)).toBaseIO with
  | .ok bytes =>
    match String.fromUTF8? bytes with
    | some text => return some (.file (.text text.toList))
    | none => return some (.file .binary)
  | .error (.inappropriateType _ code _) =>
    return if code = folderCode then some (.folder []) else none
  | .error _ => return none

def lookAll (disk : Disk) (paths : List Text) : IO Disk :=
  paths.foldlM (fun disk path => do
    match ← look path with
    | some e => return Snapshot.add disk path e
    | none => return disk) disk

def snapshot (folder : Text) (command : Option Command) : IO Disk := do
  let a := Snapshot.argumentsOf command
  let start := Snapshot.add {} folder (.folder [])
  let disk ← lookAll start (Snapshot.asked folder a)
  lookAll disk (Snapshot.reported disk folder a)

def print (words : Text) : IO Unit := IO.print (String.ofList words)
def printError (words : Text) : IO Unit := IO.eprint (String.ofList words)

def finish (before : Disk) (r : RunResult) : IO UInt32 := do
  printError r.stderr
  print r.stdout
  for (path, text) in Snapshot.changes before r.disk do
    IO.FS.writeFile (String.ofList path) (String.ofList text)
  match r.status with
  | .ok status => return status.code.toUInt32
  | .error failure =>
    printError (Console.failure failure)
    return ExitStatus.error.code.toUInt32

def runIn (folder : Text) (command : Option Command) : IO UInt32 := do
  let disk ← snapshot folder command
  match World.run ⟨disk, folder, none⟩ command with
  | .ok r => finish disk r
  | .error fault =>
    printError (Console.fault fault)
    return Console.faultCode.toUInt32

def refuse (e : UsageError) : IO UInt32 := do
  match Console.answer? e with
  | some words =>
    print words
    return ExitStatus.success.code.toUInt32
  | none =>
    printError (Console.refusal e)
    return ExitStatus.error.code.toUInt32

end Shell
end Quell

def main (arguments : List String) : IO UInt32 := do
  match Quell.CommandLine.parse (arguments.map String.toList) with
  | .error e => Quell.Shell.refuse e
  | .ok command => Quell.Shell.runIn (toString (← IO.currentDir)).toList command
