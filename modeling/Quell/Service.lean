import Quell.ConfigFile
import Quell.Source

/-!
Tools for coding agents: one annotates a source text, one tells the configuration of a project. Both
take a record of parameters and answer with a text in JSON.
-/
namespace Quell
namespace Service

inductive ServiceError where
  | invalidParameters (message : Text)
  | internal (message : Text)
  deriving DecidableEq, Repr, Inhabited

namespace ServiceError

def code : ServiceError → Int
  | invalidParameters _ => -32602
  | internal _ => -32603

def message : ServiceError → Text
  | invalidParameters m => m
  | internal m => m

end ServiceError

/-! Parameters. -/

def diagnosticOf? (j : Json) : Option Diagnostic :=
  match Json.record? [⟨"line", false⟩, ⟨"ruleId", false⟩, ⟨"severity", false⟩] j with
  | some [line, rule, severity] => do
    let level ← Json.optional Json.byte? severity
    return {
      line := ← Json.required Json.wide? line
      rule := some (← Json.required Json.text? rule)
      severity := level.getD Diagnostic.errorSeverity }
  | _ => none

structure SuppressParams where
  source : Text
  path : Text
  diagnostics : List Diagnostic
  message : Option Text
  rules : Option (List Text)
  inline : Option Bool
  /-- The project whose configuration supplies what is not given. -/
  project : Option Text
  deriving DecidableEq, Repr, Inhabited

def SuppressParams.slots : List Json.Slot :=
  ["source", "filePath", "diagnostics", "message", "rules", "inline", "projectRootPath"].map
    (⟨·, false⟩)

def SuppressParams.ofJson? (j : Json) : Option SuppressParams :=
  match Json.record? slots j with
  | some [source, path, diagnostics, message, rules, inline, project] => do
    return {
      source := ← Json.required Json.text? source
      path := ← Json.required Json.text? path
      diagnostics := ← Json.required (Json.list? diagnosticOf?) diagnostics
      message := ← Json.optional Json.text? message
      rules := ← Json.optional (Json.list? Json.text?) rules
      inline := ← Json.optional Json.bool? inline
      project := ← Json.optional Json.text? project }
  | _ => none

def projectOf? (j : Json) : Option Text :=
  match Json.record? [⟨"projectRootPath", false⟩] j with
  | some [project] => Json.required Json.text? project
  | _ => none

/-! Answers. -/

def loadConfig (disk : Disk) (project : Text) : Except ServiceError ConfigFile.Loaded :=
  match ConfigFile.load disk project with
  | .ok loaded => .ok loaded
  | .error e => .error (.internal ("Failed to load config: ".toList ++ e.message))

def optionsFor (disk : Disk) (p : SuppressParams) : Except ServiceError AnnotateOptions := do
  let config ← match p.project with
    | some project => (loadConfig disk project).map (·.config)
    | none => .ok {}
  match p.message.map checkMessage with
  | some (.error flaw) => .error (.invalidParameters flaw.message)
  | _ =>
    return ⟨p.message.getD config.message, p.rules.getD config.rules, p.inline.getD config.inline⟩

def skippedJson (s : Skipped) : Json :=
  .ofFields [("line", .ofNat s.line), ("ruleId", .ofText s.rule),
    ("reason", .ofText s.reason.description)]

def outcomeJson (source : Text) (o : Outcome) : Json :=
  .ofFields [("changed", .bool o.text.isSome), ("source", .ofText (o.text.getD source)),
    ("inserted", .ofNat o.summary.inserted), ("merged", .ofNat o.summary.merged),
    ("alreadySuppressed", .ofNat o.summary.alreadySuppressed),
    ("skipped", .array (o.summary.skipped.map skippedJson))]

def suppressSource (disk : Disk) (p : SuppressParams) : Except Fault (Except ServiceError Text) :=
  match optionsFor disk p with
  | .error e => .ok (.error e)
  | .ok options =>
    (annotateSource options p.path p.source p.diagnostics).map fun
      | none => .error (.internal (unreadable p.path))
      | some outcome => .ok (outcomeJson p.source outcome).pretty

def getConfig (disk : Disk) (project : Text) : Except ServiceError Text :=
  (loadConfig disk project).map fun loaded =>
    (Json.ofFields [("fromFile", .bool loaded.fromFile),
      ("config", .ofFields loaded.config.fields)]).pretty

def instructions : Text :=
  ("Hushlint MCP places ESLint suppression comments for existing errors.\n\n" ++
   "Available tools:\n" ++
   "1. get_config - Get project configuration (default message, rule whitelist, inline mode)\n" ++
   "2. suppress_source - Annotate one source text given its lint errors\n\n" ++
   "Pass the diagnostics exactly as ESLint reported them (line, ruleId, severity). " ++
   "Running suppress_source again on its own output changes nothing.").toList

structure Capabilities where
  tools : Bool := false
  prompts : Bool := false
  resources : Bool := false
  deriving DecidableEq, Repr, Inhabited

def capabilities : Capabilities := { tools := true }

end Service
end Quell
