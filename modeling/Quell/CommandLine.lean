import Quell.Text.Basic

/-!
Command lines. Words are read from left to right and the first fault decides, with one exception:
an option takes the word behind it as its value and is settled only when the next word is
understood, so a word that nobody knows is complained about first.
-/
namespace Quell

inductive UsageError where
  | unknownArgument
  | invalidSubcommand
  | displayHelp
  | displayVersion
  | argumentConflict
  | invalidValue
  | tooManyValues
  deriving DecidableEq, Repr, Inhabited

/-- What the command `suppress` was told. -/
structure SuppressArgs where
  paths : List Text := []
  apply : Bool := false
  message : Option Text := none
  rules : Option Text := none
  inline : Bool := false
  baseConfig : Option Text := none
  report : Option Text := none
  verbose : Bool := false
  deriving DecidableEq, Repr, Inhabited

inductive Command where
  | suppress (args : SuppressArgs)
  | init
  | serve
  deriving DecidableEq, Repr, Inhabited

namespace CommandLine

/-! Words. -/

inductive Word where
  /-- Two dashes: what follows is no option. -/
  | divider
  | long (name : Text) (value : Option Text)
  | short (letters : Text)
  | plain (text : Text)
  deriving DecidableEq, Repr, Inhabited

def Word.ofText : Text → Word
  | ['-', '-'] => .divider
  | '-' :: '-' :: cs =>
    match Text.splitOnce? ['='] cs with
    | some (name, value) => .long name (some value)
    | none => .long cs none
  | '-' :: c :: cs => .short (c :: cs)
  | cs => .plain cs

/-! Options of `suppress`. -/

inductive Flag where
  | apply
  | inline
  | verbose
  | help
  deriving DecidableEq, Repr, Inhabited

inductive Setting where
  | message
  | rules
  | baseConfig
  | report
  deriving DecidableEq, Repr, Inhabited

def flags : List (String × Flag) :=
  [("apply", .apply), ("inline", .inline), ("verbose", .verbose), ("help", .help)]

def settings : List (String × Setting) :=
  [("message", .message), ("rules", .rules), ("base-config", .baseConfig), ("report", .report)]

def flag? (name : Text) : Option Flag :=
  (flags.find? fun (spelling, _) => spelling.toList = name).map (·.2)

def setting? (name : Text) : Option Setting :=
  (settings.find? fun (spelling, _) => spelling.toList = name).map (·.2)

def letter? : Char → Option Flag
  | 'v' => some .verbose
  | 'h' => some .help
  | _ => none

def raise (a : SuppressArgs) : Flag → Except UsageError SuppressArgs
  | .apply => if a.apply then .error .argumentConflict else .ok { a with apply := true }
  | .inline => if a.inline then .error .argumentConflict else .ok { a with inline := true }
  | .verbose => if a.verbose then .error .argumentConflict else .ok { a with verbose := true }
  | .help => .error .displayHelp

def current (a : SuppressArgs) : Setting → Option Text
  | .message => a.message
  | .rules => a.rules
  | .baseConfig => a.baseConfig
  | .report => a.report

def store (a : SuppressArgs) (value : Text) : Setting → SuppressArgs
  | .message => { a with message := some value }
  | .rules => { a with rules := some value }
  | .baseConfig => { a with baseConfig := some value }
  | .report => { a with report := some value }

def assign (a : SuppressArgs) (s : Setting) (value : Text) : Except UsageError SuppressArgs :=
  if (current a s).isSome then .error .argumentConflict
  else if s = .report && value.isEmpty then .error .invalidValue
  else .ok (store a value s)

/-! Reading. -/

structure Pending where
  setting : Setting
  value : Option Text := none
  deriving DecidableEq, Repr, Inhabited

def settle (a : SuppressArgs) : Option Pending → Except UsageError SuppressArgs
  | none => .ok a
  | some ⟨s, some value⟩ => assign a s value
  | some ⟨_, none⟩ => .error .invalidValue

def letters (p : Option Pending) (a : SuppressArgs) : Text → Except UsageError SuppressArgs
  | [] => .ok a
  | c :: cs => do
    match letter? c with
    | none => .error .unknownArgument
    | some f => letters none (← raise (← settle a p) f) cs

def onlyPaths (p : Option Pending) (a : SuppressArgs) (ws : List Text) :
    Except UsageError SuppressArgs := do
  let a ← settle a p
  return { a with paths := a.paths ++ ws }

def suppressArgs (p : Option Pending) (a : SuppressArgs) :
    List Text → Except UsageError SuppressArgs
  | [] => settle a p
  | w :: ws => do
    match Word.ofText w with
    | .divider => onlyPaths p a ws
    | .long name value =>
      match flag? name, setting? name, value with
      | some _, _, some _ => .error .tooManyValues
      | some f, _, none => suppressArgs none (← raise (← settle a p) f) ws
      | none, some s, some v => suppressArgs none (← assign (← settle a p) s v) ws
      | none, some s, none => suppressArgs (some ⟨s, none⟩) (← settle a p) ws
      | none, none, _ => .error .unknownArgument
    | .short cs => suppressArgs none (← letters p a cs) ws
    | .plain cs =>
      match p with
      | some ⟨s, none⟩ => suppressArgs (some ⟨s, some cs⟩) a ws
      | p =>
        let a ← settle a p
        suppressArgs none { a with paths := a.paths ++ [cs] } ws

def bare (c : Command) : List Text → Except UsageError Command
  | [] => .ok c
  | w :: ws =>
    match Word.ofText w with
    | .divider => if ws.isEmpty then .ok c else .error .unknownArgument
    | .long name value =>
      if flag? name = some .help then
        .error (if value.isSome then .tooManyValues else .displayHelp)
      else .error .unknownArgument
    | .short (c :: _) => .error (if c = 'h' then .displayHelp else .unknownArgument)
    | _ => .error .unknownArgument

def commandNames : List Text := ["suppress", "init", "serve", "help"].map String.toList

def help : List Text → UsageError
  | [] => .displayHelp
  | [w] => if commandNames.contains w then .displayHelp else .invalidSubcommand
  | _ => .invalidSubcommand

def misplaced : List Text → Except UsageError (Option Command)
  | [] => .ok none
  | w :: _ =>
    .error (if commandNames.contains w then .unknownArgument else .invalidSubcommand)

def command (name : Text) (ws : List Text) : Except UsageError (Option Command) :=
  if name = "suppress".toList then (suppressArgs none {} ws).map fun a => some (.suppress a)
  else if name = "init".toList then (bare .init ws).map some
  else if name = "serve".toList then (bare .serve ws).map some
  else if name = "help".toList then .error (help ws)
  else .error .invalidSubcommand

def question (name : Text) (value : Option Text) : UsageError :=
  if name = "help".toList || name = "version".toList then
    if value.isSome then .tooManyValues
    else if name = "help".toList then .displayHelp
    else .displayVersion
  else .unknownArgument

def parse : List Text → Except UsageError (Option Command)
  | [] => .ok none
  | w :: ws =>
    match Word.ofText w with
    | .divider => misplaced ws
    | .long name value => .error (question name value)
    | .short ('h' :: _) => .error .displayHelp
    | .short ('V' :: _) => .error .displayVersion
    | .short _ => .error .unknownArgument
    | .plain name => command name ws

end CommandLine

/-- Details are wanted. -/
def Command.verbose : Command → Bool
  | suppress args => args.verbose
  | _ => false

/-! How a run ends. -/

inductive ExitStatus where
  /-- Nothing is left to suppress, or the changes were written. -/
  | success
  /-- Changes wait to be written, or a configuration stands in the way. -/
  | failure
  /-- Some files could not be handled. -/
  | error
  deriving DecidableEq, Repr, Inhabited

namespace ExitStatus

def ofSuppress (hasErrors pending apply : Bool) : ExitStatus :=
  if hasErrors then .error else if pending && !apply then .failure else .success

def code : ExitStatus → Nat
  | success => 0
  | failure => 1
  | error => 2

end ExitStatus
end Quell
