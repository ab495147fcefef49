import Quell.Grammar.Term
import Quell.Grammar.Token

/-!
Readers: functions that take tokens from a source and answer with what they stand for, or refuse.
The grammar is an open recursion: a rule is a reader over a table of rules (`Rules`), and the
table is closed at the end by a bound on the depth of nesting, so every rule is total.
-/
namespace Quell.Grammar

structure Scope where
  /-- Types may be written. -/
  typed : Bool
  /-- Markup may be written. -/
  markup : Bool
  inFunction : Bool := false
  /-- Inside a function that is no arrow, in a field or in a static block. -/
  ownThis : Bool := false
  inAsync : Bool := false
  inGenerator : Bool := false
  /-- Inside a member of a class or an object, which may refer to what it overrides. -/
  inMember : Bool := false
  /-- In the value of a field or in a static block, where no arguments were passed. -/
  inField : Bool := false
  /-- Among the parameters of a function, where nothing is awaited or yielded. -/
  inParameters : Bool := false
  /-- Directly in a static block, where nothing is awaited. -/
  inStatic : Bool := false
  /-- Declarations describe code that stands elsewhere. -/
  ambient : Bool := false
  /-- The word `in` is an operator. -/
  allowIn : Bool := true
  /-- A colon that follows belongs to a conditional. -/
  expectColon : Bool := false
  canBreak : Bool := false
  canContinue : Bool := false
  labels : List String := []
  /-- Where an arrow function may start. -/
  arrowAt : Option Nat := none
  /-- The word `extends` does not open a conditional type. -/
  plainTypes : Bool := false
  deriving Repr, Inhabited

namespace Scope

/-- Inside brackets, nothing of the surrounding expression is in force. -/
def inner (s : Scope) : Scope :=
  { s with allowIn := true, expectColon := false, arrowAt := none, plainTypes := false }

def function (s : Scope) (async generator arrow : Bool) : Scope :=
  { s.inner with
    inFunction := true, ownThis := s.ownThis || !arrow, inAsync := async
    inGenerator := generator, inField := s.inField && arrow, inParameters := false
    inStatic := false, canBreak := false, canContinue := false, labels := [] }

def method (s : Scope) : Scope := { s.function false false false with inMember := true }

def staticBlock (s : Scope) : Scope :=
  { s.inner with
    ownThis := true, inAsync := false, inGenerator := false, inMember := true, inField := true
    inStatic := true
    canBreak := false, canContinue := false, labels := [] }

def field (s : Scope) : Scope :=
  { s.inner with
    ownThis := true, inFunction := true, inAsync := false, inGenerator := false, inMember := true
    inField := true }

def parameters (s : Scope) : Scope := { s.inner with inParameters := true }

def loop (s : Scope) : Scope := { s with canBreak := true, canContinue := true }

end Scope

/-- Offsets in a source are numbers of 32 bits, so nothing in it is repeated more often or nested
deeper. -/
def limit : Nat := 4294967296

/-- What a reader sees of a token. -/
structure Sight where
  lexeme : Lexeme
  /-- A line ended since the token before. -/
  fresh : Bool
  /-- The operator that starts here; a greater-than sign may be the front of a longer one. -/
  operator : Option String
  /-- The number of stretches taken before. -/
  place : Nat
  deriving DecidableEq, Repr, Inhabited

namespace Sight

def isMark (t : Sight) (sign : String) : Bool := t.lexeme.isMark sign

def isWord (t : Sight) (name : String) : Bool := t.lexeme.isWord name

def word? (t : Sight) : Option String := t.lexeme.word?

def isDone (t : Sight) : Bool := t.lexeme == .done

end Sight

/-- A part of the text that was taken in one piece. -/
structure Stretch where
  lo : Nat
  hi : Nat
  /-- It is raw text between tags and holes. -/
  raw : Bool := false
  /-- A line ended since the stretch before. -/
  fresh : Bool := false
  deriving DecidableEq, Repr, Inhabited

structure Reading where
  /-- The end of the last stretch. -/
  last : Nat
  /-- The text behind the last stretch. -/
  rest : Text
  /-- The token that comes next. -/
  token : Token
  /-- The stretches taken so far, last one first. -/
  stretches : List Stretch := []
  /-- The comments passed so far, last one first. -/
  remarks : List Remark := []
  deriving Repr, Inhabited

namespace Reading

def start (pos : Nat) (rest : Text) : Reading :=
  { last := pos, rest, token := Token.next pos rest true }

/-- Behind a text that starts at the next token, and raw text that follows it. -/
def behind (s : Reading) (text words rest : Text) : Reading :=
  let mid := s.token.lo + Text.bytes text
  let hi := mid + Text.bytes words
  { last := hi
    rest
    token := Token.next hi rest false
    stretches :=
      (if words.isEmpty then [] else [⟨mid, hi, true, false⟩]) ++
        ⟨s.token.lo, mid, false, s.token.fresh⟩ :: s.stretches
    remarks := s.token.remarks ++ s.remarks }

/-- Take text from the next token on, with the raw text behind it if there is any. -/
def take? (s : Reading) (how : Reach) : Option ((Text × Text) × Reading) :=
  match if how.fits s.token.lexeme then how.rest? s.token else none with
  | some rest =>
    let text := s.token.here.take (s.token.here.length - rest.length)
    let words := if how = .words then rest.takeWhile (!endsMarkupText ·) else []
    if text.isEmpty then none
    else some ((text, words), s.behind text words (rest.drop words.length))
  | none => none

def sight (s : Reading) : Sight :=
  ⟨s.token.lexeme, s.token.fresh, s.token.operator, s.stretches.length⟩

/-- The token is always taken as it is, except for a name with dashes. -/
def isFirm (l : Lexeme) : Bool :=
  match l with
  | .word _ _ | .mark "?" | .mark "<" | .mark "\x7b" => true
  | _ => false

/-- The token behind one that is firm. -/
def following? (k : Token) : Option Token :=
  if isFirm k.lexeme then some (Token.next k.hi k.rest false) else none

def glimpse (s : Reading) (k : Option Token) : Sight :=
  match k with
  | some k => ⟨k.lexeme, k.fresh, none, s.stretches.length + 1⟩
  | none => ⟨.bad, false, none, s.stretches.length + 1⟩

def second (s : Reading) : Sight := s.glimpse (following? s.token)

def third (s : Reading) : Sight := s.glimpse ((following? s.token).bind following?)

end Reading

/-- Pairs of readings that show the same and stay alike, except where the first one goes astray. -/
structure Likeness where
  Alike : Reading → Reading → Prop
  Astray : Reading → Prop
  shows : ∀ {s t}, Alike s t → s.sight = t.sight ∧ s.second = t.second ∧ s.third = t.third
  takes : ∀ {how s t x s'}, Alike s t → s.take? how = some (x, s') →
    Astray s' ∨ ∃ t', t.take? how = some (x, t') ∧ Alike s' t'
  strays : ∀ {how s x s'}, Astray s → s.take? how = some (x, s') → Astray s'

/-- From readings that are alike the same is read. With types there are readings on trial, which
have to fail alike: then this is said of equal readings only. -/
def Uniform {α : Type} (run : Scope → Reading → Option (α × Reading)) : Prop :=
  ∀ (w : Likeness) (c : Scope), c.typed = false ∨ (∀ s t, w.Alike s t → s = t) →
    ∀ s a s', run c s = some (a, s') → (w.Astray s → w.Astray s') ∧
      ∀ t, w.Alike s t → w.Astray s' ∨ ∃ t', run c t = some (a, t') ∧ w.Alike s' t'

section

variable {α β : Type} {run : Scope → Reading → Option (α × Reading)}

/-- Looking only, at what alike readings show. -/
theorem Uniform.look {f : Scope → Reading → α} (blind : ∀ c s t, s.sight = t.sight →
    s.second = t.second → s.third = t.third → f c s = f c t) : Uniform fun c s => some (f c s, s) := by
  intro w c _ s a s' run
  cases run
  refine ⟨id, fun t alike => .inr ⟨t, ?_, alike⟩⟩
  obtain ⟨first, second, third⟩ := w.shows alike
  rw [blind c s t first second third]

theorem Uniform.bind {next : α → Scope → Reading → Option (β × Reading)} (h : Uniform run)
    (h' : ∀ a, Uniform (next a)) : Uniform fun c s =>
      match run c s with
      | some (a, s) => next a c s
      | none => none := by
  intro w c plain s b s'' done
  dsimp only at done
  split at done
  next a s' first =>
    obtain ⟨strays, alikes⟩ := h w c plain s a s' first
    obtain ⟨strays', alikes'⟩ := h' a w c plain s' b s'' done
    refine ⟨strays' ∘ strays, fun t alike => ?_⟩
    rcases alikes t alike with astray | ⟨t', first', alike'⟩
    · exact .inl (strays' astray)
    · simp only [first']
      exact alikes' t' alike'
  next => cases done

theorem Uniform.attempt (h : Uniform run) : Uniform fun c s =>
    if c.typed then
      match run c s with
      | some (a, s) => some (some a, s)
      | none => some (none, s)
    else some (none, s) := by
  intro w c plain s a s' done
  dsimp only at done ⊢
  cases typed : c.typed with
  | false =>
    rw [typed] at done
    cases done
    exact ⟨id, fun t alike => .inr ⟨t, rfl, alike⟩⟩
  | true =>
    have same := plain.resolve_left (by rw [typed]; exact Bool.noConfusion)
    rw [typed, if_pos rfl] at done
    simp only [if_true]
    split at done
    next b s'' tried =>
      cases done
      obtain ⟨strays, alikes⟩ := h w c plain s b s' tried
      refine ⟨strays, fun t alike => (alikes t alike).imp id ?_⟩
      rintro ⟨t', tried', alike'⟩
      exact ⟨t', by rw [tried'], alike'⟩
    next tried =>
      cases done
      refine ⟨id, fun t alike => .inr ⟨t, ?_, alike⟩⟩
      rw [← same s t alike, tried]

theorem Uniform.ahead (run : Scope → Reading → Option (α × Reading)) :
    Uniform fun c s => some (c.typed && (run c s).isSome, s) := by
  intro w c plain s a s' done
  cases done
  refine ⟨id, fun t alike => .inr ⟨t, ?_, alike⟩⟩
  rcases plain with untyped | same
  · simp only [untyped, Bool.false_and]
  · rw [same s t alike]

end

structure Reader (α : Type) where
  run : Scope → Reading → Option (α × Reading)
  uniform : Uniform run

namespace Reader

variable {α : Type}

/-- A reader that only looks. -/
def look (f : Scope → Reading → α)
    (blind : ∀ c s t, s.sight = t.sight → s.second = t.second → s.third = t.third → f c s = f c t) :
    Reader α :=
  ⟨fun c s => some (f c s, s), .look blind⟩

instance : Monad Reader where
  pure a := look (fun _ _ => a) fun _ _ _ _ _ _ => rfl
  bind p f :=
    ⟨fun c s =>
      match p.run c s with
      | some (a, s) => (f a).run c s
      | none => none, p.uniform.bind fun a => (f a).uniform⟩

def refuse : Reader α := ⟨fun _ _ => none, fun _ _ _ _ _ _ done => by cases done⟩

def scope : Reader Scope := look (fun c _ => c) fun _ _ _ _ _ _ => rfl

/-- The token that comes next. -/
def token : Reader Sight := look (fun _ s => s.sight) fun _ _ _ same _ _ => same

/-- The token behind the next one. -/
def second : Reader Sight := look (fun _ s => s.second) fun _ _ _ _ same _ => same

/-- The token behind that. -/
def third : Reader Sight := look (fun _ s => s.third) fun _ _ _ _ _ same => same

def take (how : Reach) : Reader (Text × Text) where
  run _ s := s.take? how
  uniform w _ _ _ _ _ done :=
    ⟨fun astray => w.strays astray done, fun _ alike => w.takes alike done⟩

/-- In another scope of the same dialect. -/
def within (f : Scope → Scope) (p : Reader α) : Reader α where
  run c s := p.run { f c with typed := c.typed, markup := c.markup } s
  uniform w c plain := p.uniform w { f c with typed := c.typed, markup := c.markup } plain

def require (b : Bool) : Reader Unit := if b then pure () else refuse

/-- A reading on trial, which only types call for. -/
def attempt (p : Reader α) : Reader (Option α) :=
  ⟨fun c s =>
    if c.typed then
      match p.run c s with
      | some (a, s) => some (some a, s)
      | none => some (none, s)
    else some (none, s), p.uniform.attempt⟩

/-- Whether something could be read, which only types ask for. -/
def ahead (p : Reader α) : Reader Bool :=
  ⟨fun c s => some (c.typed && (p.run c s).isSome, s), .ahead p.run⟩

/-- The place of the next token among the stretches. -/
def here : Reader Nat := do return (← token).place

/-- The place of the last stretch. -/
def last : Reader Nat := do return (← here) - 1

def bump : Reader Unit := do
  let _ ← take .token

/-- The last sign of a tag or a hole. Inside an element raw text follows, which is a term if there
is any. -/
def bumpWords : Reader (List Term) := do
  let (_, words) ← take .words
  if words.isEmpty then return []
  let place ← last
  return [.mk (.shown (.text [])) place place []]

def atMark (sign : String) : Reader Bool := do return (← token).isMark sign

def atWord (name : String) : Reader Bool := do return (← token).isWord name

def eat (sign : String) : Reader Bool := do
  if ← atMark sign then bump; return true else return false

def eatWord (name : String) : Reader Bool := do
  if ← atWord name then bump; return true else return false

def eatIf (meant : Bool) (sign : String) : Reader Bool := do
  if meant then eat sign else return false

def eatWordIf (meant : Bool) (name : String) : Reader Bool := do
  if meant then eatWord name else return false

def expect (sign : String) : Reader Unit := do
  require (← atMark sign)
  bump

def expectWord (name : String) : Reader Unit := do
  require (← atWord name)
  bump

/-- A term from `lo` up to the last stretch. -/
def node (label : Label) (lo : Nat) (parts : List Term) : Reader Term := do
  return .mk label lo (← last) parts

def semicolon : Reader Unit := do
  let t ← token
  if t.isMark ";" then bump else require (t.isMark "\x7d" || t.isDone || t.fresh)

def atStatementEnd : Reader Bool := do
  let t ← token
  return t.isMark ";" || t.isMark "\x7d" || t.isDone || t.fresh

def repeatUpTo : Nat → Reader (Option α) → Reader (List α)
  | 0, _ => refuse
  | fuel + 1, step => do
    match ← step with
    | none => return []
    | some a => return a :: (← repeatUpTo fuel step)

/-- Run a step until it answers with nothing. -/
def repeated (step : Reader (Option α)) : Reader (List α) := repeatUpTo limit step

def commaList (close : String) (item : Reader α) : Reader (List α) := do
  let items ← repeated do
    if ← atMark close then return none
    let a ← item
    unless ← atMark close do expect ","
    return some a
  expect close
  return items

end Reader

inductive Rule where
  | assignment
  | expression
  | unary
  | leftSide
  | callee
  | binding
  | statement (declares : Bool)
  | item
  | type
  | markup (inside : Bool)
  deriving DecidableEq, Repr, Inhabited

/-- A table of rules. -/
abbrev Rules := Rule → Reader Term

/-! Names. -/

def reservedWords : List String :=
  ["break", "case", "catch", "class", "const", "continue", "debugger", "default", "delete", "do",
   "else", "enum", "export", "extends", "false", "finally", "for", "function", "if", "import",
   "in", "instanceof", "new", "null", "return", "super", "switch", "this", "throw", "true", "try",
   "typeof", "var", "void", "while", "with"]

def strictWords : List String :=
  ["await", "implements", "interface", "let", "package", "private", "protected", "public",
   "static", "yield"]

def isReserved (name : String) : Bool := reservedWords.contains name || strictWords.contains name

namespace Reader

def identifier : Reader String := do
  match (← token).word? with
  | some name =>
    require (!isReserved name)
    bump
    return name
  | none => refuse

def anyWord : Reader String := do
  match (← token).word? with
  | some name => bump; return name
  | none => refuse

def bindingName : Reader Term := do
  let lo ← here
  match (← token).word? with
  | some name =>
    let plain := !isReserved name && !isRestricted name
    require (plain || ((← scope).typed && name == "this"))
    bump
    node (.pattern .name) lo []
  | none => refuse

def string : Reader Unit := do
  require ((← token).lexeme == .quoted)
  bump

def startsMemberName (t : Sight) : Bool :=
  match t.lexeme with
  | .word _ _ | .quoted | .number | .hashName => true
  | .mark s => s == "["
  | _ => false

end Reader
end Quell.Grammar
