import Quell.Grammar.Reader

/-!
Patterns in binding position, and the parameters of functions.

A pattern with a type reaches to the end of the type. Every parameter of a function gets a node of
its own around its pattern.
-/
namespace Quell.Grammar

open Reader

def annotation (r : Rules) : Reader Term := do
  expect ":"
  within Scope.inner (r .type)

def annotated (r : Rules) (p : Term) : Reader Term := do
  if (← scope).typed && (← atMark ":") then
    let t ← annotation r
    return (p.addParts [t]).setHi (← last)
  else return p

structure Key where
  term : Term
  /-- Spelling of a plain word or string. -/
  name : Option String
  /-- It is a plain word, which can stand for a value as well. -/
  isWord : Bool := false

def key (r : Rules) : Reader Key := do
  let t ← token
  match t.lexeme with
  | .word name _ => bump; return ⟨.none, some name, true⟩
  | .quoted =>
    let (chars, _) ← take .token
    return ⟨.none, some (String.ofList (chars.drop 1).dropLast), false⟩
  | .number => bump; return ⟨.none, none, false⟩
  | .mark "[" =>
    bump
    let e ← within Scope.inner (r .assignment)
    expect "]"
    return ⟨.group [e], none, false⟩
  | _ => refuse

def bindingElement (r : Rules) : Reader Term := do
  let lo ← here
  let left ← r .binding
  if ← eat "=" then
    let value ← within Scope.inner (r .assignment)
    node (.pattern .defaulted) lo [left, value]
  else return left

def arrayElement (r : Rules) : Reader Term := do
  let lo ← here
  if ← atMark "," then return .mk .elision lo lo []
  if ← eat "..." then
    let arg ← r .binding
    require (← atMark "]")
    node (.pattern .rest) lo [arg]
  else bindingElement r

def arrayPattern (r : Rules) : Reader Term := do
  let lo ← here
  expect "["
  let elements ← commaList "]" (arrayElement r)
  node (.pattern .list) lo elements

def objectElement (r : Rules) : Reader Term := do
  if ← eat "..." then
    let arg ← r .binding
    require (← atMark "\x7d")
    return arg
  let k ← key r
  if ← eat ":" then
    return .group [k.term, ← bindingElement r]
  match k.name with
  | some name =>
    require (k.isWord && !isReserved name && !isRestricted name)
    if ← eat "=" then return .group [← within Scope.inner (r .assignment)]
    else return .none
  | none => refuse

def objectPattern (r : Rules) : Reader Term := do
  let lo ← here
  expect "\x7b"
  let entries ← commaList "\x7d" (objectElement r)
  node (.pattern .record) lo entries

def binding (r : Rules) : Reader Term := do
  if ← atMark "[" then arrayPattern r
  else if ← atMark "\x7b" then objectPattern r
  else bindingName

def Term.isPattern (t : Term) (m : Mold) : Bool := t.label == .pattern m

def parameter (r : Rules) : Reader Term := do
  let lo ← here
  let p ← r .binding
  let optional ← if (← scope).typed then eat "?" else pure false
  let p ← annotated r p
  if ← eat "=" then
    require (!optional && !(← scope).ambient)
    let value ← within Scope.inner (r .assignment)
    node (.pattern .defaulted) lo [p, value]
  else return p

def restParameter (r : Rules) (close : String) : Reader Term := do
  let lo ← here
  expect "..."
  let arg ← r .binding
  let typed ← annotated r (.mk (.pattern .rest) lo 0 [arg])
  require (← atMark close)
  return typed.setHi (← last)

def wrappedParameter (r : Rules) : Reader Term := do
  let lo ← here
  let p ← if ← atMark "..." then restParameter r ")" else parameter r
  node (.shown .part) lo [p]

def parameters (r : Rules) : Reader (List Term) := do
  expect "("
  within Scope.parameters (commaList ")" (wrappedParameter r))

def unwrapParameter (wrapped : Term) : Reader Term :=
  match wrapped.parts with
  | [p] => if p.isPattern .defaulted then refuse else pure (.group p.parts)
  | _ => refuse

def signatureParameters (r : Rules) : Reader (List Term) := do
  (← parameters r).mapM unwrapParameter

end Quell.Grammar
