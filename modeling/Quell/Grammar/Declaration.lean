import Quell.Grammar.Members

/-!
Declarations: variables, functions and classes and, with types, interfaces, aliases, enumerations
and name spaces. A declaration answers with its parts, so that an exported one needs no node of its
own inside the export.
-/
namespace Quell.Grammar

open Reader

/-! Variables. -/

inductive Binder where
  | var
  | let
  | const
  deriving DecidableEq, Repr, Inhabited

def binder? (t : Sight) : Option Binder :=
  if t.isWord "var" then some .var
  else if t.isWord "let" then some .let
  else if t.isWord "const" then some .const
  else none

def mayLackValue (c : Scope) (b : Binder) (inHead : Bool) (p : Term) : Bool :=
  c.ambient || ((b != .const || inHead) && p.isPattern .name)

def dividesHead (t : Sight) : Bool := t.isWord "of" || t.isWord "in"

def declarator (r : Rules) (b : Binder) (inHead : Bool) : Reader Term := do
  let c ← scope
  let lo ← here
  let p ← r .binding
  if c.typed && p.isPattern .name then let _ ← eat "!"
  let p ← annotated r p
  if inHead && dividesHead (← token) then node (.shown .part) lo [p]
  else if ← eat "=" then
    let value ← r .assignment
    node (.shown .part) lo [p, value]
  else
    require (mayLackValue c b inHead p)
    node (.shown .part) lo [p]

def declarators (r : Rules) (b : Binder) (inHead : Bool) : Reader (List Term) := do
  let first ← declarator r b inHead
  let more ← repeated do
    if ← eat "," then return some (← declarator r b inHead) else return none
  return first :: more

def namesNext (next : Sight) : Bool :=
  !next.fresh && (next.word?.map fun name => !isReserved name).getD false

def managedDeclaration (r : Rules) : Reader (Option (List Term)) := do
  if !(← scope).typed then return none
  if !((← atWord "using") || (← atWord "await")) then return none
  attempt do
    let _ ← eatWord "await"
    expectWord "using"
    require (namesNext (← token))
    let ds ← declarators r .const false
    require (ds.all fun d => d.parts.head?.any (·.isPattern .name))
    semicolon
    return ds

/-! Declarations that describe types. -/

def enumMember (r : Rules) : Reader Term := do
  let t ← token
  require (t.word?.isSome || t.lexeme == .quoted)
  bump
  if ← eat "=" then r .assignment else return .none

def enumAfterKeyword (r : Rules) : Reader (List Term) := do
  let _ ← anyWord
  expect "\x7b"
  commaList "\x7d" (enumMember r)

def interfaceAfterKeyword (r : Rules) : Reader (List Term) := do
  let name ← anyWord
  require (!builtinTypes.contains name)
  let tps ← optionalTypeParameters r
  let parents ← if ← eatWord "extends" then heritageNames r else pure .none
  let members ← typeMembers r
  return [tps, parents, members]

def aliasAfterKeyword (r : Rules) : Reader (List Term) := do
  let _ ← anyWord
  let tps ← optionalTypeParameters r
  expect "="
  let t ← innerType r
  semicolon
  return [tps, t]

def itemBlock (r : Rules) : Reader (List Term) := do
  expect "\x7b"
  let items ← repeated do
    if ← atMark "\x7d" then return none else return some (← r .item)
  expect "\x7d"
  return items

def spaceAfterKeyword (r : Rules) : Reader (List Term) := do
  if (← token).lexeme == .quoted then
    bump
    if ← atMark "\x7b" then itemBlock r
    else
      semicolon
      return []
  else
    qualifiedName
    itemBlock r

def typedDeclaration (r : Rules) : Reader (Option (List Term)) := do
  let t ← token
  let next ← second
  if t.isWord "enum" then
    bump
    return some (← enumAfterKeyword r)
  else if t.isWord "const" && next.isWord "enum" then
    bump
    bump
    return some (← enumAfterKeyword r)
  else if t.isWord "abstract" && next.isWord "class" && !next.fresh then
    bump
    bump
    return some (← classAfterKeyword r true)
  else if t.isWord "interface" && namesNext next then
    bump
    return some (← interfaceAfterKeyword r)
  else if t.isWord "type" && namesNext next then
    bump
    return some (← aliasAfterKeyword r)
  else if t.isWord "namespace" && namesNext next then
    bump
    return some (← spaceAfterKeyword r)
  else if t.isWord "module" && (namesNext next || (next.lexeme == .quoted && !next.fresh)) then
    bump
    return some (← spaceAfterKeyword r)
  else if t.isWord "global" && next.isMark "\x7b" then
    bump
    return some (← itemBlock r)
  else return none

def plainDeclaration (r : Rules) : Reader (Option (List Term)) := do
  let t ← token
  let next ← second
  if (← scope).typed then
    if let some parts ← typedDeclaration r then return some parts
  if let some b := binder? t then
    bump
    let ds ← declarators r b false
    semicolon
    return some ds
  else if t.isWord "function" then
    bump
    return some (← functionAfterKeyword r false true true)
  else if t.isWord "async" && next.isWord "function" && !next.fresh then
    bump
    bump
    return some (← functionAfterKeyword r true true true)
  else if t.isWord "class" then
    bump
    return some (← classAfterKeyword r true)
  else return none

def declaration (r : Rules) : Reader (Option (List Term)) := do
  let c ← scope
  if c.typed && (← atWord "declare") && (← second).word?.isSome then
    let ambient ← attempt do
      require (!c.ambient)
      bump
      match ← within (fun s => { s with ambient := true }) (plainDeclaration r) with
      | some parts => return parts
      | none => refuse
    if let some parts := ambient then return some parts
  plainDeclaration r

end Quell.Grammar
