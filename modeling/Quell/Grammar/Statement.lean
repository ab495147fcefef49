import Quell.Grammar.Declaration
import Quell.Grammar.Expression

/-!
Statements. Blocks, conditionals and lone semicolons have their own kinds of nodes; every other
statement is a plain one around its parts.
-/
namespace Quell.Grammar

open Reader

def condition (r : Rules) : Reader Term := do
  expect "("
  let e ← r .expression
  expect ")"
  return e

def substatement (r : Rules) : Reader Term := r (.statement false)

def loopBody (r : Rules) : Reader Term := within Scope.loop (substatement r)

def conditionalStatement (r : Rules) : Reader Term := do
  let lo ← here
  expectWord "if"
  let test ← condition r
  let yes ← substatement r
  let no ← if ← eatWord "else" then pure [← substatement r] else pure []
  node (.shown .conditional) lo (test :: yes :: no)

/-! Loops. -/

def loopRange (r : Rules) (awaits : Bool) : Reader Term := do
  let elements ← atWord "of"
  require (elements || !awaits)
  bump
  within Scope.inner (if elements then r .assignment else r .expression)

def countingTail (r : Rules) (awaits : Bool) : Reader (List Term) := do
  require (!awaits)
  expect ";"
  let test ← if ← atMark ";" then pure .none else within Scope.inner (r .expression)
  expect ";"
  let step ← if ← atMark ")" then pure .none else within Scope.inner (r .expression)
  return [test, step]

def takesApart (t : Term) : Bool := t.isPattern .list || t.isPattern .record

def isLoopVariable (typed overMembers : Bool) : Term → Bool
  | .mk _ _ _ [p] =>
    !(typed && ((p.isPattern .name && !p.parts.isEmpty) || (overMembers && takesApart p)))
  | _ => false

def variableHead (r : Rules) (b : Binder) (awaits : Bool) : Reader (List Term) := do
  bump
  let ds ← within (fun s => { s with allowIn := false }) (declarators r b true)
  if dividesHead (← token) then
    match ds with
    | [d] =>
      require (isLoopVariable (← scope).typed (← atWord "in") d)
      return [d, ← loopRange r awaits]
    | _ => refuse
  else return ds ++ (← countingTail r awaits)

def expressionHead (r : Rules) (awaits : Bool) : Reader (List Term) := do
  let first ← token
  let e ← within (fun s => { s with allowIn := false }) (r .expression)
  let t ← token
  if dividesHead t then
    require (awaits || !(first.isWord "async" && e.name?.isSome && t.isWord "of"))
    match e.toHead? with
    | some p =>
      require (!((← scope).typed && t.isWord "in" && takesApart p))
      return [p, ← loopRange r awaits]
    | none => refuse
  else return e :: (← countingTail r awaits)

def forStatement (r : Rules) : Reader (List Term) := do
  let c ← scope
  expectWord "for"
  let awaits ← eatWord "await"
  require (!awaits || ((c.inAsync || !c.inFunction) && !c.inStatic))
  expect "("
  let head ←
    match binder? (← token) with
    | some b => variableHead r b awaits
    | none => if ← atMark ";" then countingTail r awaits else expressionHead r awaits
  expect ")"
  return head ++ [← loopBody r]

def whileStatement (r : Rules) : Reader (List Term) := do
  expectWord "while"
  let test ← condition r
  return [test, ← loopBody r]

def doStatement (r : Rules) : Reader (List Term) := do
  expectWord "do"
  let body ← loopBody r
  expectWord "while"
  let test ← condition r
  let _ ← eat ";"
  return [body, test]

/-! Jumps. -/

def jumpLabel : Reader (Option String) := do
  bump
  if ← atStatementEnd then
    semicolon
    return none
  else
    let name ← identifier
    semicolon
    return some name

def breakStatement : Reader (List Term) := do
  let c ← scope
  match ← jumpLabel with
  | some name => require (c.labels.contains name)
  | none => require c.canBreak
  return []

def continueStatement : Reader (List Term) := do
  let c ← scope
  let label ← jumpLabel
  require (c.canContinue && label.all c.labels.contains)
  return []

def returnStatement (r : Rules) : Reader (List Term) := do
  require (← scope).inFunction
  bump
  let value ← if ← atStatementEnd then pure [] else pure [← r .expression]
  semicolon
  return value

def throwStatement (r : Rules) : Reader (List Term) := do
  bump
  require (!(← token).fresh)
  let value ← r .expression
  semicolon
  return [value]

/-! Choices and handlers. -/

def caseBody (r : Rules) : Reader (List Term) := repeated do
  let t ← token
  if t.isWord "case" || t.isWord "default" || t.isMark "\x7d" then return none
  else return some (← r (.statement true))

def switchCase (r : Rules) : Reader (Term × Bool) := do
  let lo ← here
  let isDefault ← eatWord "default"
  let test ← if isDefault then pure .none else do
    expectWord "case"
    r .expression
  expect ":"
  let body ← caseBody r
  return (← node (.shown .part) lo (test :: body), isDefault)

def switchStatement (r : Rules) : Reader (List Term) := do
  expectWord "switch"
  let e ← condition r
  expect "\x7b"
  let cases ← within (fun s => { s with canBreak := true }) <| repeated do
    if ← atMark "\x7d" then return none else return some (← switchCase r)
  expect "\x7d"
  require ((cases.filter (·.2)).length ≤ 1)
  return e :: cases.map (·.1)

def caught (r : Rules) : Reader Term := do
  expect "("
  let p ← r .binding
  let typed ← annotated r p
  expect ")"
  return typed.setHi p.hi

def catchClause (r : Rules) : Reader Term := do
  let lo ← here
  expectWord "catch"
  let p ← if ← atMark "(" then caught r else pure .none
  let body ← block r
  node (.shown .part) lo [p, body]

def tryStatement (r : Rules) : Reader (List Term) := do
  expectWord "try"
  let body ← block r
  let handler ← if ← atWord "catch" then pure [← catchClause r] else pure []
  let last ← if ← eatWord "finally" then pure [← block r] else pure []
  require (!(handler.isEmpty && last.isEmpty))
  return body :: handler ++ last

def labelledStatement (r : Rules) : Reader (List Term) := do
  let c ← scope
  let name ← identifier
  expect ":"
  require (!c.labels.contains name)
  let body ← within (fun s => { s with labels := name :: s.labels, canBreak := true })
    (substatement r)
  return [body]

def debuggerStatement : Reader (List Term) := do
  bump
  semicolon
  return []

def expressionStatement (r : Rules) : Reader (List Term) := do
  let e ← r .expression
  semicolon
  return [e]

/-! All of them. -/

def keywordStatement (r : Rules) (t : Sight) : Option (Reader (List Term)) :=
  if t.isWord "for" then some (forStatement r)
  else if t.isWord "while" then some (whileStatement r)
  else if t.isWord "do" then some (doStatement r)
  else if t.isWord "break" then some breakStatement
  else if t.isWord "continue" then some continueStatement
  else if t.isWord "return" then some (returnStatement r)
  else if t.isWord "throw" then some (throwStatement r)
  else if t.isWord "switch" then some (switchStatement r)
  else if t.isWord "try" then some (tryStatement r)
  else if t.isWord "debugger" then some debuggerStatement
  else none

def needsList (t : Sight) : Bool :=
  ["let", "const", "function", "class", "async"].any t.isWord

def plainStatement (r : Rules) (declares : Bool) : Reader (List Term) := do
  let t ← token
  if let some keyword := keywordStatement r t then keyword
  else if let some parts ← if declares then managedDeclaration r else pure none then return parts
  else if let some parts ← declaration r then
    require (declares || !needsList t)
    return parts
  else if t.word?.isSome && (← second).isMark ":" then labelledStatement r
  else expressionStatement r

/-- Rule `statement`. -/
def statement (r : Rules) (declares : Bool) : Reader Term := within Scope.inner do
  let t ← token
  if t.isMark "\x7b" then block r
  else if t.isMark ";" then
    bump
    node (.shown .empty) t.place []
  else if t.isWord "if" then conditionalStatement r
  else
    let parts ← plainStatement r declares
    node (.shown .statement) t.place parts

end Quell.Grammar
