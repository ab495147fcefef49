import Quell.Annotate
import Quell.Ignore
import Quell.Json.Write

/-!
The configuration of a project.
-/
namespace Quell

structure Config where
  /-- Explanation in every new directive. -/
  message : Text := defaultMessage
  /-- Rules to suppress; none means all. -/
  rules : List Text := []
  /-- Write behind the code instead of above it. -/
  inline : Bool := false
  /-- Configuration that the linter is told to use. -/
  baseConfig : Option Text := none
  /-- Patterns of paths that are left out. -/
  ignores : List Text := []
  /-- Leave out what the ignore file of the project lists. -/
  useIgnoreFiles : Bool := true
  deriving DecidableEq, Repr, Inhabited

inductive ConfigFlaw where
  | badGlob (pattern : Text) (reason : BadPattern)
  | manyLines
  | closesComment
  | badRule (name : Text)
  deriving DecidableEq, Repr, Inhabited

namespace ConfigFlaw

def message : ConfigFlaw → Text
  | badGlob pattern _ => "Invalid glob pattern in 'ignores': \"".toList ++ pattern ++ ['"']
  | manyLines => "Invalid 'message': must be a single line".toList
  | closesComment => "Invalid 'message': must not contain \"*/\"".toList
  | badRule name => "Invalid rule name in 'rules': \"".toList ++ name ++ ['"']

def reason? : ConfigFlaw → Option Text
  | badGlob _ reason => some reason.message
  | _ => none

end ConfigFlaw

def checkMessage (message : Text) : Except ConfigFlaw Unit :=
  if message.any fun c => c == '\n' || c == '\r' then .error .manyLines
  else if Text.holds ['*', '/'] message then .error .closesComment
  else .ok ()

namespace Config

def slots : List Json.Slot :=
  ["message", "rules", "inline", "baseConfig", "ignores", "useIgnoreFiles"].map (⟨·, true⟩)

/-- Every field has a value to stand in for it. -/
def ofJson? (j : Json) : Option Config :=
  match Json.record? slots j with
  | some [message, rules, inline, baseConfig, ignores, useIgnoreFiles] => do
    return {
      message := ← Json.defaulted defaultMessage Json.text? message
      rules := ← Json.defaulted [] (Json.list? Json.text?) rules
      inline := ← Json.defaulted false Json.bool? inline
      baseConfig := ← Json.optional Json.text? baseConfig
      ignores := ← Json.defaulted [] (Json.list? Json.text?) ignores
      useIgnoreFiles := ← Json.defaulted true Json.bool? useIgnoreFiles }
  | _ => none

/-- All fields in order. -/
def fields (c : Config) : List (String × Json) :=
  [("message", .ofText c.message), ("rules", .ofTexts c.rules), ("inline", .bool c.inline),
   ("baseConfig", .ofOption Json.ofText c.baseConfig), ("ignores", .ofTexts c.ignores),
   ("useIgnoreFiles", .bool c.useIgnoreFiles)]

/-- A base configuration is written only if there is one. -/
def toJson (c : Config) : Json :=
  .ofFields (c.fields.filter fun (name, _) => name != "baseConfig" || c.baseConfig.isSome)

def defaultText : Text := (toJson {}).pretty

def checkIgnores : List Text → Except ConfigFlaw Unit
  | [] => .ok ()
  | p :: ps =>
    match IgnoreRule.exclusion p with
    | .error e => .error (.badGlob p e)
    | .ok _ => checkIgnores ps

def isRuleName (name : Text) : Bool := !name.isEmpty && !name.any fun c => c == ',' || isBlank c

def checkRules (rules : List Text) : Except ConfigFlaw Unit :=
  match rules.find? (!isRuleName ·) with
  | some name => .error (.badRule name)
  | none => .ok ()

/-- The first flaw, if there is one. -/
def check (c : Config) : Except ConfigFlaw Unit := do
  checkIgnores c.ignores
  checkMessage c.message
  checkRules c.rules

def annotateOptions (c : Config) : AnnotateOptions := ⟨c.message, c.rules, c.inline⟩

end Config
end Quell
