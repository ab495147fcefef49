import Quell.Config
import Quell.Disk

/-!
Failures that end a run. Each has a message, and a chain of causes below it that say more.
-/
namespace Quell

inductive Cause where
  /-- A text is not the JSON that was asked for. -/
  | malformed
  | detail (text : Text)
  deriving DecidableEq, Repr, Inhabited

inductive Ending where
  | exited (code : Nat)
  | killed (signal : Nat)
  deriving DecidableEq, Repr, Inhabited

namespace Ending

def signalNames : List String :=
  ["SIGHUP", "SIGINT", "SIGQUIT", "SIGILL", "SIGTRAP", "SIGABRT", "SIGBUS", "SIGFPE", "SIGKILL",
   "SIGUSR1", "SIGSEGV", "SIGUSR2", "SIGPIPE", "SIGALRM", "SIGTERM"]

def signalName (n : Nat) : Text :=
  match n with
  | 0 => []
  | n + 1 =>
    match signalNames[n]? with
    | some name => " (".toList ++ name.toList ++ [')']
    | none => []

def message : Ending → Text
  | exited code => "exit status: ".toList ++ Text.ofNat code
  | killed signal => "signal: ".toList ++ Text.ofNat signal ++ signalName signal

end Ending

inductive Failure where
  | flawedConfig (flaw : ConfigFlaw)
  | unreadableConfig (path : Text) (reason : DiskError)
  | malformedConfig (path : Text)
  | unreadableReport (path : Text) (reason : DiskError)
  | malformedReport
  | missingLinter
  | brokenLinter (ending : Ending) (words : Text)
  | unwritable (path : Text) (reason : DiskError)
  | misplacedService
  deriving DecidableEq, Repr, Inhabited

namespace Failure

def quotedChar (c : Char) : Text :=
  if c == '"' || c == '\\' then ['\\', c]
  else if c == '\t' then ['\\', 't']
  else if c == '\n' then ['\\', 'n']
  else if c == '\r' then ['\\', 'r']
  else if c.toNat = 0 then ['\\', '0']
  else if c.toNat < 0x20 || c.toNat = 0x7F then
    "\\u\x7b".toList ++ Nat.toDigits 16 c.toNat ++ ['\x7d']
  else [c]

def quoted (path : Text) : Text := '"' :: path.flatMap quotedChar ++ ['"']

def message : Failure → Text
  | flawedConfig flaw => flaw.message
  | unreadableConfig path _ => "Failed to read config file: ".toList ++ quoted path
  | malformedConfig path => "Failed to parse config file: ".toList ++ quoted path
  | unreadableReport path _ => "Failed to read ESLint report ".toList ++ path
  | malformedReport => "Failed to parse ESLint JSON output".toList
  | missingLinter =>
    "Failed to run eslint via npx; is eslint installed in this project?".toList
  | brokenLinter ending words =>
    "eslint exited with ".toList ++ ending.message ++ ": ".toList ++ words.trim
  | unwritable path _ => "Failed to write ".toList ++ path
  | misplacedService => "Serve command should be handled before run_cli()".toList

def causes : Failure → List Cause
  | flawedConfig flaw => flaw.reason?.toList.map .detail
  | unreadableConfig _ reason => [.detail reason.message]
  | malformedConfig _ => [.malformed]
  | unreadableReport _ reason => [.detail reason.message]
  | malformedReport => [.malformed]
  | missingLinter => [.detail DiskError.missing.message]
  | unwritable _ reason => [.detail reason.message]
  | brokenLinter _ _ => []
  | misplacedService => []

end Failure
end Quell
