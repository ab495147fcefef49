import Quell.Json.Write

/-!
Diagnostics: what a linter says about a line.
-/
namespace Quell

/-- Line and column are 64-bit numbers, the severity an 8-bit one. Without a rule the complaint
is about the file as a whole. -/
structure Diagnostic where
  line : Nat
  column : Option Nat := none
  rule : Option Text
  severity : Nat
  message : Option Text := none
  deriving DecidableEq, Repr, Inhabited

namespace Diagnostic

def errorSeverity : Nat := 2

/-- The rule to suppress. Warnings, and errors without a name, are left alone. -/
def actionableRule (d : Diagnostic) : Option Text :=
  if d.severity < errorSeverity then none else d.rule.filter (!·.isEmpty)

def slots : List Json.Slot :=
  [⟨"line", true⟩, ⟨"column", true⟩, ⟨"ruleId", false⟩, ⟨"severity", false⟩, ⟨"message", true⟩]

/-- The linter leaves out the line of some messages, but never the severity. -/
def ofJson? (j : Json) : Option Diagnostic :=
  match Json.record? slots j with
  | some [line, column, rule, severity, message] => do
    return {
      line := ← Json.defaulted 0 Json.wide? line
      column := ← Json.optional Json.wide? column
      rule := ← Json.optional Json.text? rule
      severity := ← Json.required Json.byte? severity
      message := ← Json.optional Json.text? message }
  | _ => none

/-- Column and message are written only if they are known. -/
def toJson (d : Diagnostic) : Json :=
  .ofFields ([("line", .ofNat d.line)]
    ++ (d.column.map fun n => ("column", Json.ofNat n)).toList
    ++ [("ruleId", .ofOption Json.ofText d.rule), ("severity", .ofNat d.severity)]
    ++ (d.message.map fun t => ("message", Json.ofText t)).toList)

end Diagnostic
end Quell
