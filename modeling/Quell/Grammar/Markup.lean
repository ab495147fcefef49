import Quell.Grammar.Types

/-!
Markup in expressions: elements, fragments, their attributes and children. Between tags the text is
raw; it ends at a tag or a hole, and a stray closing sign in it is refused. The raw text is taken
together with the sign in front of it, so whoever reads that sign has to know whether it stands
inside an element.
-/
namespace Quell.Grammar

open Reader

def markupWord : Reader Text := do
  let (name, _) ← take .tagName
  return name

def dottedNames : Reader Text := do
  let more ← repeated do
    if ← eat "." then return some ('.' :: (← markupWord)) else return none
  return more.flatten

def elementName : Reader Text := do
  let first ← markupWord
  if ← eat ":" then return first ++ ':' :: (← markupWord)
  else return first ++ (← dottedNames)

/-- The last sign of a tag or a hole: its place, and what follows it inside an element. -/
def closing (inside : Bool) (sign : String) : Reader (Nat × List Term) := do
  require (← atMark sign)
  let place ← here
  if inside then return (place, ← bumpWords)
  else
    bump
    return (place, [])

/-- A term, and the raw text behind it inside an element. -/
def followed (inside : Bool) (t : Term) (words : List Term) : Term :=
  if inside then .group (t :: words) else t

/-- An expression in braces. Without one, the inside of the braces is a node. -/
def hole (r : Rules) (inside : Bool) : Reader Term := do
  let lo ← here
  expect "\x7b"
  if inside && (← atMark "\x7d") then
    let (hi, words) ← closing inside "\x7d"
    return followed inside (.mk (.shown .hole) lo hi [.mk (.shown .emptyHole) lo hi []]) words
  let e ← within Scope.inner (r .expression)
  let (hi, words) ← closing inside "\x7d"
  return followed inside (.mk (.shown .hole) lo hi [e]) words

def attributeValue (r : Rules) : Reader (List Term) := do
  if ← atMark "\x7b" then return [← hole r false]
  else if ← atMark "<" then return [← r (.markup false)]
  else
    let _ ← take .quoted
    return []

def spreadAttribute (r : Rules) : Reader Term := do
  expect "\x7b"
  expect "..."
  let e ← within Scope.inner (r .assignment)
  expect "\x7d"
  return e

def markupAttribute (r : Rules) : Reader Term := do
  if ← atMark "\x7b" then spreadAttribute r
  else
    let lo ← here
    let _ ← markupWord
    if ← eat ":" then let _ ← markupWord
    let value ← if ← eat "=" then attributeValue r else pure []
    node (.shown .attribute) lo value

def childHole (r : Rules) : Reader Term := do
  if (← second).isMark "..." then
    bump
    bump
    let e ← within Scope.inner (r .expression)
    let (_, words) ← closing true "\x7d"
    return followed true e words
  else hole r true

/-- Children up to the closing tag. -/
def children (r : Rules) : Reader (List Term) := repeated do
  if ← atMark "\x7b" then return some (← childHole r)
  else
    require (← atMark "<")
    if (← second).isMark "/" then return none else return some (← r (.markup true))

/-- The closing tag of an element, or of a fragment if the name is empty. -/
def closingTag (name : Text) (inside : Bool) : Reader (Term × List Term) := do
  let lo ← here
  expect "<"
  expect "/"
  if !name.isEmpty then require ((← elementName) == name)
  let (hi, words) ← closing inside ">"
  return (.mk (.shown .closingTag) lo hi [], words)

/-- The rest of an element or a fragment from the end of its opening tag on. -/
def content (r : Rules) (kind : NodeKind) (name : Text) (lo : Nat) (args : List Term)
    (inside : Bool) : Reader Term := do
  let (stop, words) ← closing true ">"
  let cs ← children r
  let (tag, after) ← closingTag name inside
  let opening := .mk (.shown .openingTag) lo stop args
  return followed inside (.mk (.shown kind) lo tag.hi (opening :: words ++ cs ++ [tag])) after

/-- Rule `markup`. -/
def markup (r : Rules) (inside : Bool) : Reader Term := do
  let lo ← here
  expect "<"
  if ← atMark ">" then content r .fragment [] lo [] inside
  else
    let name ← elementName
    let args ← if (← scope).typed && (← atMark "<") then typeArguments r else pure .none
    let attributes ← repeated do
      if (← atMark "/") || (← atMark ">") then return none else return some (← markupAttribute r)
    if ← eat "/" then
      let (hi, words) ← closing inside ">"
      let opening := .mk (.shown .openingTag) lo hi (args :: attributes)
      return followed inside (.mk (.shown .element) lo hi [opening]) words
    else content r .element name lo (args :: attributes) inside

end Quell.Grammar
