import Quell.Text.Blank

/-!
Suppression directives: the body of a comment that turns rules off for one line.

A directive names a form, a list of rules and an explanation behind two dashes. Without rules it
covers every rule. Range directives, which turn rules off for the rest of a file, are none.
-/
namespace Quell

/-- The two delimiters that a comment can have. -/
inductive CommentKind where
  | line
  | block
  deriving DecidableEq, Repr, Inhabited

namespace Directive

/-- The line that a directive speaks about. -/
inductive Form where
  | nextLine
  | sameLine
  deriving DecidableEq, Repr, Inhabited

def Form.keyword : Form → Text
  | nextLine => "eslint-disable-next-line".toList
  | sameLine => "eslint-disable-line".toList

/-- What divides rules from the explanation. -/
def separator : Text := ['-', '-']

end Directive

structure Directive where
  form : Directive.Form
  rules : List Text
  explanation : Option Text
  deriving DecidableEq, Repr, Inhabited

def ruleList (value : Text) : List Text :=
  ((Text.splitOn ',' value).map Text.trim).filter (!·.isEmpty)

namespace Directive

/-- A directive for one rule. -/
def single (form : Form) (rule : Text) (explanation : Option Text) : Directive :=
  ⟨form, [rule], explanation⟩

def suppresses (d : Directive) (rule : Text) : Bool := d.rules.isEmpty || d.rules.contains rule

def add? (d : Directive) (rule : Text) : Option Directive :=
  if d.suppresses rule then none else some { d with rules := d.rules ++ [rule] }

def distinct (entries : List Text) : List Text :=
  entries.foldl (fun kept r => if kept.contains r then kept else kept ++ [r]) []

def behindKeyword? (keyword body : Text) : Option Text :=
  match Text.after? keyword body with
  | some [] => some []
  | some (c :: rest) => if isBlank c then some rest else none
  | none => none

def ofBody (form : Form) (body : Text) : Directive :=
  match Text.splitOnce? separator body with
  | some (rules, why) =>
    ⟨form, distinct (ruleList rules), some (Text.trim why) |>.filter (!·.isEmpty)⟩
  | none => ⟨form, distinct (ruleList body), none⟩

/-- Read a comment body; `none` for a body that is no directive. -/
def parse? (text : Text) : Option Directive :=
  let body := Text.trimStart text
  match behindKeyword? Form.nextLine.keyword body with
  | some rest => some (ofBody .nextLine rest)
  | none => (behindKeyword? Form.sameLine.keyword body).map (ofBody .sameLine)

/-- Write a comment body. A block comment ends in a blank, so that its closing delimiter stands
apart. -/
def encode (d : Directive) (kind : CommentKind) : Text :=
  ' ' :: d.form.keyword
    ++ (if d.rules.isEmpty then [] else ' ' :: Text.joinWith [',', ' '] d.rules)
    ++ (match d.explanation with
      | some why => ' ' :: separator ++ ' ' :: why
      | none => [])
    ++ (if kind = .block then [' '] else [])

end Directive
end Quell
