import Quell.Grammar.Members
import Quell.Grammar.Markup

/-!
Expressions. A parenthesis is read as a list of expressions and, with types, of typed patterns;
what follows it decides whether it was the head of an arrow function.
-/
namespace Quell.Grammar

open Reader

/-! Operators. -/

def binaryOperators : List (String × Nat) :=
  [(">>>", 9), ("===", 7), ("!==", 7), (">>", 9), ("<<", 9), ("**", 12), ("==", 7), ("!=", 7),
   ("<=", 8), (">=", 8), ("&&", 3), ("||", 2), ("??", 1), ("|", 4), ("^", 5), ("&", 6), ("<", 8),
   (">", 8), ("+", 10), ("-", 10), ("*", 11), ("/", 11), ("%", 11)]

def assignmentOperators : List String :=
  ["=", "+=", "-=", "*=", "/=", "%=", "**=", "<<=", ">>=", ">>>=", "&=", "|=", "^=", "&&=", "||=",
   "??="]

def relational : Nat := 8

def binaryOperator (c : Scope) (t : Sight) : Option (String × Nat) :=
  if t.isWord "instanceof" || (c.allowIn && t.isWord "in") then some ("in", relational)
  else t.operator.bind fun s => binaryOperators.find? (·.1 == s)

def operationShape (sign : String) : Shape :=
  if sign == "&&" || sign == "||" then .orAnd else if sign == "??" then .nullish else .binary

/-- Operands that do not go together: a negation raised to a power, and a choice by null next to a
logical operator without parentheses. -/
def clash (sign : String) (left right : Term) : Bool :=
  (sign == "**" && (left.isExpr .unary || left.isExpr .awaited)) ||
    (sign == "??" && (left.isExpr .orAnd || right.isExpr .orAnd)) ||
    ((sign == "&&" || sign == "||") && (left.isExpr .nullish || right.isExpr .nullish))

def typedOperand (r : Rules) (left : Term) : Reader Term := do
  let isAs ← atWord "as"
  bump
  if isAs && (← atWord "const") then
    bump
    node (.expr .constant) left.lo [left]
  else
    let t ← innerType r
    node (.expr .typed) left.lo [left, t]

def climb (r : Rules) : Nat → Term → Nat → Reader Term
  | 0, _, _ => refuse
  | fuel + 1, left, min => do
    let c ← scope
    let t ← token
    if c.typed && !t.fresh && min < relational && (t.isWord "as" || t.isWord "satisfies") then
      climb r fuel (← typedOperand r left) min
    else match binaryOperator c t with
      | none => return left
      | some (sign, level) =>
        if level ≤ min then return left
        let _ ← take .operator
        let operand ← r .unary
        let right ← climb r fuel operand (if sign == "**" then level - 1 else level)
        require (!clash sign left right)
        climb r fuel (.mk (.expr (operationShape sign)) left.lo right.hi [left, right]) min

def operation (r : Rules) : Reader Term := do
  let first ← r .unary
  if first.isArrow then return first
  climb r limit first 0

/-! Assignments. -/

def assignmentOperator (t : Sight) : Option String :=
  t.operator.bind fun s => assignmentOperators.find? (· == s)

def assignTo (r : Rules) (e : Term) : Reader Term := do
  match assignmentOperator (← token) with
  | none => return e
  | some sign =>
    let target ←
      if sign == "=" then match e.toTarget? with
        | some t => pure t
        | none => refuse
      else
        require (e.isSimple && e.hasTargetShape)
        pure e.hide
    let _ ← take .operator
    let value ← r .assignment
    node (.expr (.assigned (sign == "="))) e.lo [target, value]

def choice (r : Rules) (test : Term) : Reader Term := do
  expect "?"
  let yes ← within (fun s => { s.inner with expectColon := true }) (r .assignment)
  expect ":"
  let no ← r .assignment
  return .mk (.expr .conditional) test.lo no.hi [test, yes, no]

def isOperation (t : Term) : Bool :=
  match t.label with
  | .expr .binary | .expr .orAnd | .expr .nullish | .expr .unary | .expr .update => true
  | _ => false

def endsYield (t : Sight) : Bool :=
  t.fresh || t.isDone || t.isWord "in" || t.isWord "of" ||
    [")", "]", "\x7d", ",", ";", ":"].any t.isMark

def yieldExpression (r : Rules) : Reader Term := do
  let lo ← here
  require (!(← scope).inParameters)
  bump
  if endsYield (← token) then node (.expr .other) lo []
  else
    let _ ← eat "*"
    let e ← r .assignment
    node (.expr .other) lo [e]

def plainAssignment (r : Rules) : Reader Term := do
  let lo ← here
  if (← scope).inGenerator && (← atWord "yield") then yieldExpression r
  else
    let e ← within (fun s => { s with arrowAt := some lo }) (operation r)
    if e.isArrow then return e
    else if ← atMark "?" then choice r e
    else if isOperation e then return e
    else assignTo r e

/-! Arrow functions. -/

def parameterPatterns? : List Term → Option (List Term)
  | [] => some []
  | [.mk .spread _ _ [arg]] =>
    if arg.isExpr (.assigned true) then none
    else (arg.toPattern? true).map fun p => [Term.restOf p]
  | t :: rest =>
    match t.toPattern? true, parameterPatterns? rest with
    | some p, some ps => if p.isPattern .rest && !rest.isEmpty then none else some (p :: ps)
    | _, _ => none

def commaAfterRest (items : List Term) (comma : Bool) : Bool :=
  comma && match items.getLast? with
    | some t => t.label == .spread || t.isPattern .rest
    | none => false

def arrowTail (r : Rules) (lo : Nat) (async : Bool) (parts : List Term) : Reader Term := do
  require (!(← token).fresh)
  expect "=>"
  let braced ← atMark "\x7b"
  let body ← within (fun s => { s.function async false true with allowIn := s.allowIn })
    (if braced then block r else r .assignment)
  node (.expr (.arrow braced)) lo (parts ++ [body])

def arrowFromItems (r : Rules) (lo : Nat) (async : Bool) (head : Term) (items : List Term)
    (comma : Bool) (result : Term) : Reader Term := do
  match parameterPatterns? items with
  | none => refuse
  | some ps =>
    require (!commaAfterRest items comma)
    let f ← arrowTail r lo async (head :: ps ++ [result])
    let t ← token
    require (!(f.isExpr (.arrow true) && (binaryOperator (← scope) t).isSome && t.word?.isNone))
    return f

/-- With types, an item that starts with a name is read short of its question mark, which may make
a parameter optional. -/
def namedItem (r : Rules) : Reader (Term × Bool) := do
  let lo ← here
  let e ← within (fun s => { s with arrowAt := some lo }) (operation r)
  if e.isArrow then return (e, false)
  let e ← if isOperation e then pure e else assignTo r e
  if !(← atMark "?") then return (e, false)
  let next ← second
  if [",", ":", ")", "="].any next.isMark then
    require e.name?.isSome
    bump
    return (e, true)
  else return (← choice r e, false)

def parenItem (r : Rules) : Reader Term := do
  let c ← scope
  let lo ← here
  let spread ← eat "..."
  let t ← token
  let (e, optional) ←
    if c.typed && (t.word?.map (!isReserved ·)).getD false then namedItem r
    else pure (← r .assignment, false)
  if c.typed && (optional || (← atMark ":")) then
    match e.toPattern? true with
    | none => refuse
    | some p =>
      let p ← if spread then node (.pattern .rest) lo [p] else pure p
      let p ← annotated r p
      if ← eat "=" then
        let value ← r .assignment
        node (.pattern .defaulted) lo [p, value]
      else return p
  else if spread then return .mk .spread lo e.hi [e]
  else return e

def parenItems (r : Rules) : Reader (List Term × Bool) := do
  expect "("
  let items ← within Scope.inner <| repeated do
    if ← atMark ")" then return none
    let item ← parenItem r
    let comma ← eat ","
    require (comma || (← atMark ")"))
    return some (item, comma)
  expect ")"
  return (items.map (·.1), (items.getLast?.map (·.2)).getD false)

def parenthesised (lo : Nat) (items : List Term) (comma : Bool) : Reader Term := do
  require (!comma && !items.any fun t => t.label == .spread || t.isBinding)
  match items with
  | [] => refuse
  | [e] => node (.expr .paren) lo [e]
  | first :: rest =>
    let hi := (rest.getLast?.map Term.hi).getD first.hi
    node (.expr .paren) lo [.mk (.expr .other) first.lo hi items]

/-- The result type of an arrow function, if it turns out to be one. Where a colon belongs to a
conditional, the whole function is read on trial. -/
def typedArrow (r : Rules) (lo : Nat) (async : Bool) (items : List Term) (comma : Bool) :
    Reader (Option Term) := do
  let c ← scope
  if !(c.typed && (← atMark ":")) then return none
  attempt do
    bump
    let result ← within Scope.inner (resultType r)
    require (← atMark "=>")
    let f ← arrowFromItems r lo async .none items comma result
    require (!c.expectColon || (← atMark ":"))
    return f

def parenOrArrow (r : Rules) (asyncToken : Option Sight) : Reader Term := do
  let c ← scope
  let lo := (asyncToken.map (·.place)).getD (← here)
  let mayArrow := c.arrowAt == some lo
  let async := asyncToken.isSome
  let (items, comma) ← parenItems r
  if mayArrow then
    if let some f ← typedArrow r lo async items comma then return f
  if ← atMark "=>" then
    require mayArrow
    arrowFromItems r lo async .none items comma .none
  else match asyncToken with
    | some t =>
      require (!items.any (·.isBinding))
      node (.expr .call) lo (.mk (.expr (.name "async")) t.place t.place [] :: items)
    | none => parenthesised lo items comma

def genericArrow (r : Rules) (lo : Nat) (async : Bool) : Reader Term := do
  let tps ← typeParameters r
  let (items, comma) ← parenItems r
  let result ← if ← eat ":" then within Scope.inner (resultType r) else pure .none
  arrowFromItems r lo async tps items comma result

/-- Where markup may be written, a single type parameter must be told from a tag by a comma or a
bound behind it. -/
def marksTypeParameter : Reader Bool := do
  ahead do
    expect "<"
    let _ ← eatWord "const"
    let _ ← identifier
    require ((← atMark ",") || (← atMark "=") || (← atWord "extends"))

def assignment (r : Rules) : Reader Term := do
  let c ← scope
  let lo ← here
  if c.typed && (← atMark "<") then
    if c.markup then
      if let some e ← attempt (plainAssignment r) then return e
      require (← marksTypeParameter)
      genericArrow r lo false
    else
      if let some f ← attempt (genericArrow r lo false) then return f
      plainAssignment r
  else plainAssignment r

/-! Primary expressions. -/

def arrayLiteral (r : Rules) : Reader Term := do
  let lo ← here
  expect "["
  let items ← within Scope.inner <| repeated do
    if ← atMark "]" then return none
    let start ← here
    if ← eat "," then return some (Term.mk .elision start start [], false)
    let spread ← eat "..."
    let e ← r .assignment
    let comma ← eat ","
    require (comma || (← atMark "]"))
    return some (if spread then .mk .spread start e.hi [e] else e, comma)
  expect "]"
  let trailing := match items.getLast? with
    | some (t, comma) => comma && t.label == .spread
    | none => false
  node (.expr (.array trailing)) lo (items.map (·.1))

def regexLiteral : Reader Term := do
  let lo ← here
  let _ ← take .regex
  node (.expr .literal) lo []

def templateLiteral (r : Rules) : Reader Term := do
  let lo ← here
  let (holes, odd) ← template (r .expression)
  require (!odd)
  node (.expr .other) lo holes

def nameOrArrow (r : Rules) : Reader Term := do
  let lo ← here
  let mayArrow := (← scope).arrowAt == some lo
  let id ← identifier
  require (!((← scope).inField && id == "arguments"))
  let t ← token
  if mayArrow && t.isMark "=>" && !t.fresh then
    require (!isRestricted id)
    let p ← node (.pattern .name) lo []
    arrowTail r lo false [p]
  else node (.expr (.name id)) lo []

def asyncExpression (r : Rules) : Reader Term := do
  let t ← token
  let next ← second
  let mayArrow := (← scope).arrowAt == some t.place
  if next.isWord "function" && !next.fresh then
    bump
    bump
    let parts ← functionAfterKeyword r true false false
    node (.expr .other) t.place parts
  else if mayArrow && !next.fresh && next.isMark "(" then
    bump
    parenOrArrow r (some t)
  else if mayArrow && !next.fresh && next.word?.isSome &&
      (← third).isMark "=>" then
    bump
    let p ← bindingName
    arrowTail r t.place true [p]
  else if mayArrow && !next.fresh && (← scope).typed && next.isMark "<" then
    match ← attempt (do bump; genericArrow r t.place true) with
    | some f => return f
    | none => nameOrArrow r
  else nameOrArrow r

def wordExpression (r : Rules) (name : String) : Reader Term := do
  let lo ← here
  if name == "this" then
    bump
    node (.expr .other) lo []
  else if name == "null" || name == "true" || name == "false" then
    bump
    node (.expr .literal) lo []
  else if name == "function" then
    bump
    let parts ← functionAfterKeyword r false false false
    node (.expr .other) lo parts
  else if name == "class" then
    bump
    let parts ← classAfterKeyword r false
    node (.expr .other) lo parts
  else if name == "async" then asyncExpression r
  else nameOrArrow r

def primary (r : Rules) : Reader Term := do
  let t ← token
  match t.lexeme with
  | .word name false => wordExpression r name
  | .word _ true => nameOrArrow r
  | .number => bump; node (.expr .literal) t.place []
  | .quoted => bump; node (.expr .quoted) t.place []
  | .hashName =>
    bump
    require (← atWord "in")
    node (.expr .other) t.place []
  | .mark "(" => parenOrArrow r none
  | .mark "[" => arrayLiteral r
  | .mark "\x7b" => objectLiteral r
  | .mark "\x60" => templateLiteral r
  | .mark "/" | .mark "/=" => regexLiteral
  | _ => refuse

/-! Members, calls and constructions. -/

def argument (r : Rules) : Reader Term := do
  let lo ← here
  if ← eat "..." then
    let e ← r .assignment
    return .mk .spread lo e.hi [e]
  else r .assignment

def arguments (r : Rules) : Reader (List Term) := do
  expect "("
  within Scope.inner (commaList ")" (argument r))

def memberTail (r : Rules) : Reader (List Term) := do
  if ← eat "[" then
    let e ← within Scope.inner (r .expression)
    expect "]"
    return [e]
  else
    let t ← token
    require (t.word?.isSome || t.lexeme == .hashName)
    bump
    return []

def startsExpression (t : Sight) : Bool :=
  match t.lexeme with
  | .word name _ =>
    !(["in", "instanceof", "as", "satisfies", "of", "extends", "implements"].contains name)
  | .quoted | .number | .hashName => true
  | .mark s =>
    ["(", "[", "\x7b", "\x60", "+", "-", "!", "~", "++", "--", "/", "/=", "<", "@"].contains s
  | _ => false

def endsInstantiation (c : Scope) (t : Sight) : Bool :=
  !(["<", ">", "+", "-", "("].any t.isMark) &&
    (t.fresh || (binaryOperator c t).isSome || !startsExpression t)

def linkShape (obj : Term) (call : Bool) : Shape :=
  if obj.isChain then .chain call else if call then .call else .member

def taggedTemplate (r : Rules) (obj : Term) (args : Term) : Reader Term := do
  require (!obj.isChain)
  let (holes, _) ← template (r .expression)
  node (.expr .other) obj.lo (obj :: args :: holes)

def typeApplication (r : Rules) (calls : Bool) (obj : Term) : Reader Term := do
  let args ← typeArguments r
  if calls && (← atMark "(") then
    let values ← arguments r
    node (.expr (linkShape obj true)) obj.lo (obj :: args :: values)
  else if ← atMark "\x60" then taggedTemplate r obj args
  else
    require (endsInstantiation (← scope) (← token))
    node (.expr .instantiated) obj.lo [obj, args]

def optionalLink (r : Rules) (calls : Bool) (obj : Term) : Reader Term := do
  expect "?."
  let t ← token
  if t.isMark "(" || ((← scope).typed && t.isMark "<") then
    require calls
    let args ← optionalTypeArguments r
    let values ← arguments r
    node (.expr (.chain true)) obj.lo (obj :: args :: values)
  else
    let tail ← memberTail r
    node (.expr (.chain false)) obj.lo (obj :: tail)

def subscript (r : Rules) (calls : Bool) (obj : Term) : Reader (Option Term) := do
  let c ← scope
  let t ← token
  if t.isMark "?." then return some (← optionalLink r calls obj)
  else if t.isMark "." then
    bump
    require (!(← atMark "["))
    let tail ← memberTail r
    return some (← node (.expr (linkShape obj false)) obj.lo (obj :: tail))
  else if t.isMark "[" then
    let tail ← memberTail r
    return some (← node (.expr (linkShape obj false)) obj.lo (obj :: tail))
  else if t.isMark "(" && calls then
    let values ← arguments r
    return some (← node (.expr (linkShape obj true)) obj.lo (obj :: values))
  else if t.isMark "\x60" then return some (← taggedTemplate r obj .none)
  else if c.typed && t.isMark "!" && !t.fresh then
    bump
    return some (← node (.expr .typed) obj.lo [obj])
  else if c.typed && (t.isMark "<" || t.isMark "<<") then attempt (typeApplication r calls obj)
  else return none

def subscripts (r : Rules) (calls : Bool) : Nat → Term → Reader Term
  | 0, _ => refuse
  | fuel + 1, obj => do
    match ← subscript r calls obj with
    | some next => subscripts r calls fuel next
    | none => return obj

def withSubscripts (r : Rules) (calls : Bool) (obj : Term) : Reader Term := do
  subscripts r calls limit obj

def superExpression (r : Rules) (calls : Bool) : Reader Term := do
  let lo ← here
  expectWord "super"
  if calls && (← atMark "(") then
    let values ← arguments r
    withSubscripts r calls (← node (.expr .call) lo values)
  else
    require (← scope).inMember
    if !(← atMark "[") then expect "."
    let tail ← memberTail r
    withSubscripts r calls (← node (.expr .superMember) lo tail)

def importExpression (r : Rules) (calls : Bool) : Reader Term := do
  let lo ← here
  expectWord "import"
  if ← eat "." then
    expectWord "meta"
    withSubscripts r calls (← node (.expr .other) lo [])
  else
    require calls
    let values ← arguments r
    require (values.length == 1 || values.length == 2)
    require (!values.any (·.label == .spread))
    withSubscripts r calls (← node (.expr .call) lo values)

def creation (r : Rules) : Reader (Term × Bool) := do
  let lo ← here
  expectWord "new"
  if ← eat "." then
    expectWord "target"
    require (← scope).ownThis
    return (← node (.expr .other) lo [], false)
  let callee ← r .callee
  require (!callee.isChain)
  let args ← if (← scope).typed then
      attempt (do
        let t ← typeArguments r
        require (← atMark "(")
        return t)
    else pure none
  if ← atMark "(" then
    let values ← arguments r
    return (← node (.expr .created) lo (callee :: args.getD .none :: values), false)
  else return (← node (.expr .created) lo [callee], true)

def headed (r : Rules) (calls : Bool) : Reader Term := do
  let t ← token
  if t.isWord "new" then
    let (e, bare) ← creation r
    if bare then return e else withSubscripts r calls e
  else if t.isWord "super" then superExpression r calls
  else if t.isWord "import" then importExpression r calls
  else
    let e ← primary r
    if e.isArrow then return e else withSubscripts r calls e

def leftSide (r : Rules) : Reader Term := do
  if (← scope).markup && (← atMark "<") then
    let e ← r (.markup false)
    require (!(← atMark "<"))
    return e
  else headed r true

def callee (r : Rules) : Reader Term := headed r false

/-! Unary operators. -/

def Term.unwrap : Term → Term
  | .mk (.expr .paren) _ _ [t] => t.unwrap
  | t => t

def isDeletable (t : Term) : Bool :=
  t.isExpr .member || t.isExpr (.chain false) || t.isExpr .superMember

def unaryWords : List String := ["delete", "void", "typeof"]

def isUnarySign (t : Sight) : Bool := ["+", "-", "~", "!"].any t.isMark

def isStepSign (t : Sight) : Bool := t.isMark "++" || t.isMark "--"

def assertion (r : Rules) : Reader Term := do
  let lo ← here
  expect "<"
  if ← eatWord "const" then
    expect ">"
    let e ← r .unary
    node (.expr .constant) lo [e]
  else
    let t ← innerType r
    expect ">"
    let e ← r .unary
    node (.expr .typed) lo [e, t]

def unary (r : Rules) : Reader Term := do
  let c ← scope
  let t ← token
  if c.typed && !c.markup && t.isMark "<" then assertion r
  else if isStepSign t then
    bump
    let e ← r .unary
    require (!e.isBadOperand)
    node (.expr .update) t.place [e]
  else if isUnarySign t || unaryWords.any t.isWord then
    bump
    let e ← r .unary
    if t.isWord "delete" then
      require e.name?.isNone
      require (!c.typed || isDeletable e.unwrap)
    node (.expr .unary) t.place [e]
  else if t.isWord "await" then
    require ((c.inAsync || !c.inFunction) && !c.inStatic && !c.inParameters)
    bump
    let e ← r .unary
    node (.expr .awaited) t.place [e]
  else
    let e ← r .leftSide
    let next ← token
    if e.isArrow then return e
    else if isStepSign next && !next.fresh then
      require (!e.isBadOperand)
      bump
      node (.expr .update) e.lo [e]
    else return e

/-- Rule `expression`. -/
def expression (r : Rules) : Reader Term := do
  let first ← r .assignment
  if !(← atMark ",") then return first
  let rest ← repeated do
    if ← eat "," then return some (← r .assignment) else return none
  node (.expr .other) first.lo (first :: rest)

end Quell.Grammar
