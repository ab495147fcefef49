import Quell.Grammar.Binding

/-!
Types. They have no nodes, with three exceptions that their terms carry: the keys of members, the
patterns inside a signature, and the labels of tuple elements.
-/
namespace Quell.Grammar

open Reader

def innerType (r : Rules) : Reader Term := within Scope.inner (r .type)

def typeArguments (r : Rules) : Reader Term := do
  let _ ← take .less
  let args ← commaList ">" (innerType r)
  require (!args.isEmpty)
  return .group args

def optionalTypeArguments (r : Rules) : Reader Term := do
  let t ← token
  if (← scope).typed && !t.fresh && (t.isMark "<" || t.isMark "<<") then typeArguments r
  else return .none

def isTypeParameterModifier (name : String) : Bool :=
  name == "const" || name == "in" || name == "out"

def typeParameter (r : Rules) : Reader Term := do
  let _ ← repeated do
    let t ← token
    match t.word?, (← second).word? with
    | some name, some next =>
      if isTypeParameterModifier name && next != "extends" then bump; return some ()
      else return none
    | _, _ => return none
  let _ ← identifier
  let bound ← if ← eatWord "extends" then innerType r else pure .none
  let preset ← if ← eat "=" then innerType r else pure .none
  return .group [bound, preset]

def typeParameters (r : Rules) : Reader Term := do
  expect "<"
  let ps ← commaList ">" (typeParameter r)
  require (!ps.isEmpty)
  return .group ps

def optionalTypeParameters (r : Rules) : Reader Term := do
  if (← scope).typed && (← atMark "<") then typeParameters r else return .none

def resultType (r : Rules) : Reader Term := do
  let t ← token
  let next ← second
  if t.isWord "asserts" && next.word?.isSome && !next.fresh && !next.isWord "is" then
    bump
    bump
    if ← eatWord "is" then innerType r else return .none
  else if t.word?.isSome && next.isWord "is" && !next.fresh then
    bump
    bump
    innerType r
  else innerType r

def optionalResult (r : Rules) : Reader Term := do
  if ← eatIf (← scope).typed ":" then resultType r else return .none

def qualifiedName : Reader Unit := do
  let _ ← anyWord
  let _ ← repeated do
    if ← eat "." then let _ ← anyWord; return some () else return none

def functionType (r : Rules) : Reader Term := do
  let tps ← optionalTypeParameters r
  let ps ← signatureParameters r
  expect "=>"
  let result ← within Scope.inner (resultType r)
  return .group (tps :: ps ++ [result])

def opensFunctionType (r : Rules) : Reader Bool := do
  if ← atMark "<" then return true
  if !(← atMark "(") then return false
  ahead do
    bump
    if (← atMark ")") || (← atMark "...") then return ()
    if (← token).word?.isSome then bump else let _ ← within Scope.inner (r .binding)
    if ← eat ")" then require (← atMark "=>")
    else
      let t ← token
      require (t.isMark ":" || t.isMark "," || t.isMark "?" || t.isMark "=")

def importType (r : Rules) : Reader Term := do
  expectWord "import"
  expect "("
  string
  if ← eat "," then
    unless ← atMark ")" do
      let _ ← within Scope.inner (r .assignment)
      let _ ← eat ","
  expect ")"
  if ← eat "." then qualifiedName
  optionalTypeArguments r

def memberEnd : Reader Unit := do
  unless ← eat "," do semicolon

def opensIndex : Reader Bool := do
  if ← atMark "[" then
    ahead do
      bump
      let _ ← anyWord
      require (← atMark ":")
  else return false

def indexSignature (r : Rules) : Reader Term := do
  expect "["
  let _ ← identifier
  let domain ← annotation r
  expect "]"
  let range ← if ← atMark ":" then annotation r else pure .none
  return .group [domain, range]

def memberKey (r : Rules) : Reader Term := do
  let lo ← here
  let k ← key r
  match k.term with
  | .mk .group _ _ [e] => return e
  | _ => node (.expr .other) lo []

def signature (r : Rules) : Reader Term := do
  let tps ← optionalTypeParameters r
  let ps ← signatureParameters r
  let result ← within Scope.inner (optionalResult r)
  return .group (tps :: ps ++ [result])

def eatModifier (word : String) : Reader Bool := do
  if (← atWord word) && startsMemberName (← second) then bump; return true else return false

def eatAccessor : Reader Bool := do
  if ← eatModifier "get" then return true else eatModifier "set"

def propertyOrMethod (r : Rules) : Reader Term := do
  let k ← memberKey r
  let _ ← eat "?"
  if (← atMark "(") || (← atMark "<") then return .group [k, ← signature r]
  else if ← atMark ":" then return .group [k, ← annotation r]
  else return k

def opensCall (t : Sight) : Bool := t.isMark "(" || t.isMark "<"

def typeMember (r : Rules) : Reader Term := do
  let t ← token
  let member ←
    if opensCall t then signature r
    else if t.isWord "new" && opensCall (← second) then bump; signature r
    else
      let _ ← eatModifier "readonly"
      if ← opensIndex then indexSignature r
      else if ← eatAccessor then
        let k ← memberKey r
        pure (.group [k, ← signature r])
      else propertyOrMethod r
  memberEnd
  return member

def typeMembers (r : Rules) : Reader Term := do
  expect "\x7b"
  let ms ← within Scope.inner <| repeated do
    if ← atMark "\x7d" then return none else return some (← typeMember r)
  expect "\x7d"
  return .group ms

def opensMapped : Reader Bool := do
  ahead do
    expect "\x7b"
    let _ ← eat "+"
    let _ ← eat "-"
    let _ ← eatModifier "readonly"
    expect "["
    let _ ← anyWord
    expectWord "in"

def mappedType (r : Rules) : Reader Term := do
  expect "\x7b"
  let _ ← eat "+"
  let _ ← eat "-"
  let _ ← eatModifier "readonly"
  expect "["
  let _ ← anyWord
  expectWord "in"
  let domain ← innerType r
  let renamed ← if ← eatWord "as" then innerType r else pure .none
  expect "]"
  let _ ← eat "+"
  let _ ← eat "-"
  let _ ← eat "?"
  let range ← if ← atMark ":" then annotation r else pure .none
  let _ ← eat ";"
  let _ ← eat ","
  expect "\x7d"
  return .group [domain, renamed, range]

def tupleLabel : Reader Term := do
  let lo ← here
  let spread ← eat "..."
  let nameLo ← here
  let _ ← anyWord
  let _ ← eat "?"
  let name ← node (.pattern .name) nameLo []
  expect ":"
  if spread then node (.pattern .rest) lo [name] else return name

def tupleElement (r : Rules) : Reader Term := do
  let label ← attempt tupleLabel
  let _ ← eat "..."
  let t ← innerType r
  let _ ← eat "?"
  return .group [label.getD .none, t]

def templateChunk : Reader TemplateRun := do
  let (chars, _) ← take .template
  match templateRun? chars.length false (chars.drop 1) with
  | some run => return run
  | none => refuse

/-- The holes of a template, each with whether what follows it is odd. -/
def templateHoles (hole : Reader Term) : Nat → Bool → Reader (List (Term × Bool))
  | _, true => return []
  | 0, _ => refuse
  | fuel + 1, _ => do
    let h ← within Scope.inner hole
    require (← atMark "\x7d")
    let run ← templateChunk
    return (h, run.odd) :: (← templateHoles hole fuel run.closed)

def template (hole : Reader Term) : Reader (List Term × Bool) := do
  require (← atMark "\x60")
  let first ← templateChunk
  let holes ← templateHoles hole limit first.closed
  return (holes.map (·.1), first.odd || holes.any (·.2))

def isTypeName (name : String) : Bool := !reservedWords.contains name

def wordType (r : Rules) (name : String) : Reader Term := do
  if name == "void" || name == "null" || name == "true" || name == "false" || name == "this" then
    bump
    return .none
  else if name == "import" then importType r
  else if name == "typeof" then
    bump
    if ← atWord "import" then importType r
    else
      qualifiedName
      optionalTypeArguments r
  else
    require (isTypeName name)
    qualifiedName
    optionalTypeArguments r

def atomicType (r : Rules) : Reader Term := do
  let t ← token
  match t.lexeme with
  | .word name _ => wordType r name
  | .quoted | .number => bump; return .none
  | .mark "-" =>
    bump
    require ((← token).lexeme == .number)
    bump
    return .none
  | .mark "\x60" => return .group (← template (r .type)).1
  | .mark "\x7b" => if ← opensMapped then mappedType r else typeMembers r
  | .mark "[" => bump; return .group (← commaList "]" (tupleElement r))
  | .mark "(" =>
    bump
    let t ← innerType r
    expect ")"
    return t
  | _ => refuse

def arrayType (r : Rules) : Reader Term := do
  let t ← atomicType r
  let more ← repeated do
    if ← eatIf (!(← token).fresh) "[" then
      if ← eat "]" then return some Term.none
      let index ← innerType r
      expect "]"
      return some index
    else return none
  return .group (t :: more)

def inferredType (r : Rules) : Reader Term := do
  let _ ← identifier
  let bound ← attempt do
    expectWord "extends"
    let t ← within (fun s => { s with plainTypes := true }) (r .type)
    require ((← scope).plainTypes || !(← atMark "?"))
    return t
  return bound.getD .none

def isTypeOperator (name : String) : Bool :=
  name == "keyof" || name == "unique" || name == "readonly"

def startsType (t : Sight) : Bool :=
  match t.lexeme with
  | .word name _ => name != "extends" && name != "is" && name != "as"
  | .quoted | .number => true
  | .mark s => s == "\x7b" || s == "[" || s == "(" || s == "\x60" || s == "-"
  | _ => false

def operatorType (r : Rules) : Reader Term := do
  let _ ← repeated do
    match (← token).word? with
    | some name =>
      if isTypeOperator name && startsType (← second) then bump; return some () else return none
    | none => return none
  if (← atWord "infer") && (← second).word?.isSome then bump; inferredType r else arrayType r

def joinedType (sign : String) (operand : Reader Term) : Reader Term := do
  let _ ← eat sign
  let t ← operand
  let more ← repeated do
    if ← eat sign then return some (← operand) else return none
  return .group (t :: more)

def unionOperand (r : Rules) : Reader Term := do
  if ← opensFunctionType r then functionType r
  else joinedType "&" (do if ← opensFunctionType r then functionType r else operatorType r)

def unconditionalType (r : Rules) : Reader Term := do
  let t ← token
  if ← opensFunctionType r then functionType r
  else if t.isWord "new" then bump; functionType r
  else if t.isWord "abstract" && (← second).isWord "new" then bump; bump; functionType r
  else joinedType "|" (unionOperand r)

def anyType (r : Rules) : Reader Term := do
  let t ← unconditionalType r
  if (← token).fresh || (← scope).plainTypes || !(← atWord "extends") then return t
  bump
  let bound ← within (fun s => { s with plainTypes := true }) (unconditionalType r)
  expect "?"
  let yes ← innerType r
  expect ":"
  let no ← innerType r
  return .group [t, bound, yes, no]

end Quell.Grammar
