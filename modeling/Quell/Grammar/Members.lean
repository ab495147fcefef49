import Quell.Grammar.Types

/-!
Functions, the entries of object literals and the members of classes.
-/
namespace Quell.Grammar

open Reader

/-- Statements in braces. -/
def block (r : Rules) : Reader Term := do
  let lo ← here
  expect "\x7b"
  let ss ← within Scope.inner <| repeated do
    if ← atMark "\x7d" then return none else return some (← r (.statement true))
  expect "\x7d"
  node (.shown .block) lo ss

structure Manner where
  async : Bool := false
  generator : Bool := false
  /-- It belongs to a class or an object. -/
  member : Bool := true

def functionBody (r : Rules) (bodiless : Bool) : Reader (List Term) := do
  let c ← scope
  if c.typed && bodiless && !(← atMark "\x7b") then
    semicolon
    return []
  else
    require (!c.ambient)
    return [← block r]

def functionTail (r : Rules) (m : Manner) (bodiless : Bool) : Reader (List Term) :=
  within (fun s => { s.function m.async m.generator false with inMember := m.member }) do
    let tps ← optionalTypeParameters r
    let ps ← parameters r
    let result ← optionalResult r
    let body ← functionBody r bodiless
    return tps :: ps ++ result :: body

def getterTail (r : Rules) (bodiless : Bool) : Reader (List Term) :=
  within Scope.method do
    let ps ← parameters r
    require ps.isEmpty
    let result ← optionalResult r
    return result :: (← functionBody r bodiless)

def setterParameters (r : Rules) : Reader (List Term) := do
  let ps ← parameters r
  match ps with
  | [p] => require (!p.parts.any (·.isPattern .rest)); return ps
  | _ => refuse

def setterTail (r : Rules) (bodiless : Bool) : Reader (List Term) :=
  within Scope.method do
    let ps ← setterParameters r
    let result ← optionalResult r
    return ps ++ result :: (← functionBody r bodiless)

/-- A function behind its keyword: an asterisk, a name that may be missing, and the rest. The
second argument says whether the name is bound outside. -/
def functionAfterKeyword (r : Rules) (async named bodiless : Bool) : Reader (List Term) := do
  let generator ← eat "*"
  if (← token).word?.isSome then let _ ← bindingName else require (!named)
  functionTail r ⟨async, generator, false⟩ bodiless

/-! Object literals. -/

/-- The name of a member follows, so the word before it is a modifier. An asterisk counts for
asynchronous members only. -/
def modifies (t : Sight) (star : Bool) : Bool := startsMemberName t || (star && t.isMark "*")

def entryTail (r : Rules) (lo : Nat) (k : Key) (atName : Sight) : Reader Term := do
  if (← atMark "(") || ((← scope).typed && (← atMark "<")) then
    let tail ← functionTail r {} false
    node (.entry .method) lo (k.term :: tail)
  else if ← eat ":" then
    let value ← within Scope.inner (r .assignment)
    node (.entry .keyed) lo [k.term, value]
  else match k.name with
    | some name =>
      require (k.isWord && !isReserved name && atName.word?.isSome)
      if ← eat "=" then
        let value ← within Scope.inner (r .assignment)
        node (.entry (.defaulted name)) lo [value]
      else node (.entry (.shorthand name)) lo []
    | none => refuse

def objectEntry (r : Rules) : Reader Term := do
  let lo ← here
  let t ← token
  let next ← second
  if ← eat "..." then
    let arg ← within Scope.inner (r .assignment)
    node .spread lo [arg]
  else if ← eat "*" then
    let k ← key r
    let tail ← functionTail r { generator := true } false
    node (.entry .method) lo (k.term :: tail)
  else if t.isWord "async" && !next.fresh && modifies next true then
    bump
    let generator ← eat "*"
    let k ← key r
    let tail ← functionTail r { async := true, generator } false
    node (.entry .method) lo (k.term :: tail)
  else if t.isWord "get" && modifies next false then
    bump
    let k ← key r
    let tail ← getterTail r false
    node (.entry .method) lo (k.term :: tail)
  else if t.isWord "set" && modifies next false then
    bump
    let k ← key r
    let tail ← setterTail r false
    -- a setter of an object shows the pattern without a node around it
    let bare := tail.flatMap fun p => if p.label == .shown .part then p.parts else [p]
    node (.entry .method) lo (k.term :: bare)
  else
    let k ← key r
    entryTail r lo k t

def objectLiteral (r : Rules) : Reader Term := do
  let lo ← here
  expect "\x7b"
  let entries ← within Scope.inner <| repeated do
    if ← atMark "\x7d" then return none
    let e ← objectEntry r
    let comma ← eat ","
    require (comma || (← atMark "\x7d"))
    return some (e, comma)
  expect "\x7d"
  let trailing := match entries.getLast? with
    | some (e, comma) => comma && e.label == .spread
    | none => false
  node (.expr (.object trailing)) lo (entries.map (·.1))

/-! Classes. -/

structure Modifiers where
  isStatic : Bool := false
  isAbstract : Bool := false
  isDeclared : Bool := false
  deriving Inhabited

def accessWords : List String := ["public", "private", "protected"]

def typedModifiers : List String :=
  accessWords ++ ["abstract", "override", "readonly", "declare", "accessor"]

def isModifier (c : Scope) (t next : Sight) : Bool :=
  match t.lexeme with
  | .word name false =>
    (name == "static" || (c.typed && typedModifiers.contains name)) &&
      (modifies next true || (name == "static" && next.isMark "\x7b")) &&
      !(next.fresh && name != "static" && !accessWords.contains name)
  | _ => false

def modifier : Reader (Option String) := do
  let t ← token
  if isModifier (← scope) t (← second) then
    bump
    return t.word?
  else return none

def modifiers : Reader Modifiers := do
  let words ← if (← scope).typed then repeated modifier else pure (← modifier).toList
  return ⟨words.contains "static", words.contains "abstract", words.contains "declare"⟩

/-- A constructor parameter that is a member at the same time: it has no node, but its default
shows name and value. -/
def parameterProperty (r : Rules) : Reader Term := do
  let p ← parameter r
  match p.label with
  | .pattern .name => return .group p.parts
  | .pattern .defaulted => return .group p.parts
  | _ => refuse

def propertyWords : List String := accessWords ++ ["override", "readonly"]

def constructorParameter (r : Rules) : Reader Term := do
  let words ← repeated do
    let t ← token
    match t.lexeme with
    | .word name false =>
      let next ← second
      if (← scope).typed && propertyWords.contains name &&
          (next.word?.isSome || next.isMark "[" || next.isMark "\x7b") then
        bump
        return some name
      else return none
    | _ => return none
  if words.isEmpty then wrappedParameter r else parameterProperty r

def constructorTail (r : Rules) : Reader (List Term) :=
  within Scope.method do
    let tps ← optionalTypeParameters r
    expect "("
    let ps ← within Scope.parameters (commaList ")" (constructorParameter r))
    let result ← optionalResult r
    let body ← functionBody r true
    return tps :: ps ++ result :: body

def memberName (r : Rules) : Reader Key := do
  let t ← token
  if t.lexeme == .hashName then
    let (chars, _) ← take .token
    require (chars != "#constructor".toList)
    return ⟨.none, none, false⟩
  else key r

structure Member where
  term : Term
  /-- A constructor with a body. -/
  constructs : Bool := false

def finish (lo : Nat) (parts : List Term) : Reader Member := do
  return ⟨← node (.shown .part) lo parts, false⟩

def fieldTail (r : Rules) (lo : Nat) (k : Key) : Reader Member := do
  require (k.name != some "constructor")
  let c ← scope
  if c.typed then
    unless ← eat "?" do let _ ← eat "!"
  let t ← if c.typed && (← atMark ":") then annotation r else pure .none
  let value ←
    if ← eat "=" then
      within Scope.field (r .assignment)
    else pure .none
  semicolon
  finish lo [k.term, t, value]

def methodTail (r : Rules) (lo : Nat) (k : Key) (m : Manner) : Reader Member := do
  let tail ← functionTail r m true
  finish lo (k.term :: tail)

def opensMethod (c : Scope) (t : Sight) : Bool := t.isMark "(" || (c.typed && t.isMark "<")

def namedMember (r : Rules) (lo : Nat) (ms : Modifiers) : Reader Member := do
  let c ← scope
  let k ← memberName r
  let optional ← if c.typed && (← atMark "?") && opensMethod c (← second) then eat "?" else pure false
  if opensMethod c (← token) then
    if k.name == some "constructor" && !ms.isStatic && !optional then
      let tail ← constructorTail r
      let hasBody := tail.any (·.label == .shown .block)
      return ⟨← node (.shown .part) lo tail, hasBody⟩
    require (!(ms.isStatic && k.name == some "prototype"))
    methodTail r lo k {}
  else
    require (!(ms.isStatic && k.name == some "prototype"))
    fieldTail r lo k

def markedMethod (r : Rules) (lo : Nat) (m : Manner) (ms : Modifiers) : Reader Member := do
  let k ← memberName r
  require (ms.isStatic || k.name != some "constructor")
  let _ ← if (← scope).typed then eat "?" else pure false
  methodTail r lo k m

def classMember (r : Rules) : Reader Member := do
  let lo ← here
  if ← eat ";" then return ⟨← node (.shown .part) lo [], false⟩
  if (← atWord "static") && (← second).isMark "\x7b" then
    bump
    let body ← within Scope.staticBlock (block r)
    return ⟨← node (.shown .part) lo [body], false⟩
  let ms ← modifiers
  let c ← scope
  let t ← token
  let next ← second
  if c.typed && (← opensIndex) then
    let s ← indexSignature r
    memberEnd
    finish lo [s]
  else if ← eat "*" then markedMethod r lo { generator := true } ms
  else if t.isWord "async" && !next.fresh && modifies next true then
    bump
    let generator ← eat "*"
    markedMethod r lo { async := true, generator } ms
  else if t.isWord "get" && modifies next false then
    bump
    let k ← memberName r
    require (ms.isStatic || k.name != some "constructor")
    finish lo (k.term :: (← getterTail r true))
  else if t.isWord "set" && modifies next false then
    bump
    let k ← memberName r
    require (ms.isStatic || k.name != some "constructor")
    finish lo (k.term :: (← setterTail r true))
  else namedMember r lo ms

def memberChain (lo : Nat) : Nat → Term → Reader Term
  | 0, _ => refuse
  | fuel + 1, t => do
    if ← eat "." then
      let _ ← anyWord
      memberChain lo fuel (← node (.expr .member) lo [t])
    else return t

def heritageName (r : Rules) : Reader Term := do
  let lo ← here
  let _ ← anyWord
  let first ← node (.expr .other) lo []
  let t ← memberChain lo limit first
  let args ← optionalTypeArguments r
  return .group [t, args]

def heritageNames (r : Rules) : Reader Term := do
  let first ← heritageName r
  let more ← repeated do
    if ← eat "," then return some (← heritageName r) else return none
  return .group (first :: more)

def classBody (r : Rules) : Reader (List Term) := do
  expect "\x7b"
  let ms ← within Scope.inner <| repeated do
    if ← atMark "\x7d" then return none else return some (← classMember r)
  expect "\x7d"
  require ((ms.filter (·.constructs)).length ≤ 1)
  return ms.map (·.term)

def builtinTypes : List String :=
  ["any", "bigint", "boolean", "intrinsic", "never", "null", "number", "object", "string",
   "symbol", "unknown", "void"]

def classAfterKeyword (r : Rules) (named : Bool) : Reader (List Term) := do
  let c ← scope
  let t ← token
  if t.word?.isSome && !t.isWord "extends" && !(c.typed && t.isWord "implements") then
    require (!(c.typed && builtinTypes.contains (t.word?.getD "")))
    let _ ← bindingName
  else require (!named)
  let tps ← optionalTypeParameters r
  let parent ←
    if ← eatWord "extends" then
      let e ← within Scope.inner (r .leftSide)
      let args ← optionalTypeArguments r
      -- type arguments belong to the class and leave no node around its parent
      let parent := if e.isExpr .instantiated then e.parts else [e]
      pure (Term.group (parent ++ [args]))
    else pure .none
  let interfaces ← if ← eatWordIf c.typed "implements" then heritageNames r else pure .none
  return tps :: parent :: interfaces :: (← classBody r)

end Quell.Grammar
