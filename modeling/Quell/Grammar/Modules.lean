import Quell.Grammar.Statement

/-!
Imports and exports. Each is one statement; what they name has no nodes, except for the attributes
of an import and what an export declares or evaluates.
-/
namespace Quell.Grammar

open Reader

def exportName : Reader (Option String) := do
  let t ← token
  require (t.word?.isSome || t.lexeme == .quoted)
  bump
  return t.word?

def importAttributes (r : Rules) : Reader (List Term) := do
  let t ← token
  if !t.fresh && (t.isWord "with" || t.isWord "assert") then
    bump
    require (← atMark "\x7b")
    return (← objectLiteral r).parts
  else return []

def moduleName (r : Rules) : Reader (List Term) := do
  string
  let attributes ← importAttributes r
  semicolon
  return attributes

def fromClause (r : Rules) : Reader (List Term) := do
  expectWord "from"
  moduleName r

def atAnyWord : Reader Bool := do return (← token).word?.isSome

/-- With types, the word `type` may stand before a name. It is a name itself if nothing that could
be the name follows it. The answer says whether the item is done, and whether it is of that kind. -/
structure Marked where
  done : Bool := false
  typeOnly : Bool := false
  /-- The name before a renaming, if it is a word. -/
  name : Option String

def afterTypeWord : Reader Marked := do
  let first ← anyWord
  if first != "as" then return { typeOnly := true, name := some first }
  if !(← atAnyWord) then return { done := true, typeOnly := true, name := some first }
  let next ← anyWord
  if next == "as" && (← atAnyWord) then
    let _ ← anyWord
    return { done := true, typeOnly := true, name := some "as" }
  else return { done := true, name := some "type" }

def markedName : Reader Marked := do
  let name ← exportName
  if (← scope).typed && name == some "type" && (← atAnyWord) then afterTypeWord
  else return { name }

def importSpecifier (typeOnly : Bool) : Reader Unit := do
  let m ← markedName
  require (!(typeOnly && m.typeOnly))
  if m.done then return ()
  if ← eatWord "as" then let _ ← bindingName
  else match m.name with
    | some name => require (!isReserved name && !isRestricted name)
    | none => refuse

def exportSpecifier (typeOnly : Bool) : Reader (Option String) := do
  let m ← markedName
  require (!(typeOnly && m.typeOnly))
  if !m.done then
    if ← eatWord "as" then let _ ← exportName
  return m.name

def importAlias : Reader Unit := do
  expect "="
  if (← atWord "require") && (← second).isMark "(" then
    bump
    bump
    string
    expect ")"
  else qualifiedName
  semicolon

def importedNames (typeOnly : Bool) : Reader Unit := do
  if ← eat "*" then
    expectWord "as"
    let _ ← bindingName
  else if ← eat "\x7b" then
    let _ ← commaList "\x7d" (importSpecifier typeOnly)

def eatImportType : Reader Bool := do
  let next ← second
  if !((← scope).typed && (← atWord "type")) then return false
  if next.isMark "*" || next.isMark "\x7b" then
    bump
    return true
  if !namesNext { next with fresh := false } then return false
  let third ← third
  if !next.isWord "from" || third.isWord "from" || third.isMark "=" then
    bump
    return true
  else return false

def importItem (r : Rules) : Reader (List Term) := do
  bump
  if (← token).lexeme == .quoted then moduleName r
  else
    let typeOnly ← eatImportType
    let braced := (← atMark "*") || (← atMark "\x7b")
    if !braced then
      let _ ← bindingName
      if (← scope).typed && (← atMark "=") then
        importAlias
        return []
      unless ← atWord "from" do expect ","
    importedNames typeOnly
    fromClause r

/-! Exports. -/

def defaultExport (r : Rules) : Reader (List Term) := do
  let t ← token
  let next ← second
  let typed := (← scope).typed
  if typed && t.isWord "abstract" && next.isWord "class" && !next.fresh then
    bump
    bump
    classAfterKeyword r false
  else if typed && t.isWord "interface" && next.word?.isSome then
    bump
    interfaceAfterKeyword r
  else if t.isWord "class" then
    bump
    classAfterKeyword r false
  else if t.isWord "function" then
    bump
    functionAfterKeyword r false false true
  else if t.isWord "async" && next.isWord "function" && !next.fresh then
    bump
    bump
    functionAfterKeyword r true false true
  else
    let e ← r .assignment
    semicolon
    return [e]

def namedExport (r : Rules) (typeOnly : Bool) : Reader (List Term) := do
  expect "\x7b"
  let names ← commaList "\x7d" (exportSpecifier typeOnly)
  if ← atWord "from" then fromClause r
  else
    require (names.all fun n => (n.map fun name => !reservedWords.contains name).getD false)
    semicolon
    return []

def wholeExport (r : Rules) : Reader (List Term) := do
  expect "*"
  if ← eatWord "as" then let _ ← exportName
  fromClause r

def typedExport (r : Rules) : Reader (Option (List Term)) := do
  let t ← token
  if t.isWord "import" then
    bump
    if (← atWord "type") && namesNext (← second) then bump
    let _ ← anyWord
    importAlias
    return some []
  else if t.isMark "=" then
    bump
    let e ← r .expression
    semicolon
    return some [e]
  else if t.isWord "as" then
    bump
    expectWord "namespace"
    let _ ← identifier
    semicolon
    return some []
  else return none

def exportItem (r : Rules) : Reader (List Term) := do
  bump
  let typed := (← scope).typed
  if let some parts ← declaration r then return parts
  if typed then
    if let some parts ← typedExport r then return parts
  let typeOnly ← if typed then eatWord "type" else pure false
  if ← eatWordIf (!typeOnly) "default" then defaultExport r
  else if ← atMark "*" then wholeExport r
  else namedExport r typeOnly

def item (r : Rules) : Reader Term := within Scope.inner do
  let t ← token
  let next ← second
  if t.isWord "import" && !(next.isMark "(" || next.isMark ".") then
    node (.shown .statement) t.place (← importItem r)
  else if t.isWord "export" then node (.shown .statement) t.place (← exportItem r)
  else r (.statement true)

end Quell.Grammar
