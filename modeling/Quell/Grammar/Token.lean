import Quell.Directive
import Quell.Grammar.Alphabet
import Quell.Text.Hex

/-!
Tokens of the source language. A token is cut from the text on demand and without context, so
some of them need a second look by whoever knows the context (`Reach`): a slash may open a regular
expression, a backquote or a closing brace a run of template characters, and a greater-than sign,
which is always cut alone, a longer operator. A token that cannot be right takes no characters.
-/
namespace Quell.Grammar

inductive Lexeme where
  | word (name : String) (escaped : Bool)
  | hashName
  | mark (sign : String)
  | number
  /-- A string, which may have been left open. -/
  | quoted
  | done
  /-- No token starts here. -/
  | bad
  deriving DecidableEq, Repr, Inhabited

structure Remark where
  kind : CommentKind
  text : Text
  lo : Nat
  hi : Nat
  deriving DecidableEq, Repr, Inhabited

structure Token where
  lexeme : Lexeme
  lo : Nat
  hi : Nat
  /-- A line ended since the token before. -/
  fresh : Bool
  /-- The text from the token on. -/
  here : Text
  /-- The text behind the token. -/
  rest : Text
  /-- Comments in front of the token, last one first. -/
  remarks : List Remark
  deriving Repr, Inhabited

namespace Lexeme

def isMark (l : Lexeme) (sign : String) : Bool :=
  match l with
  | .mark s => s == sign
  | _ => false

def isWord (l : Lexeme) (name : String) : Bool :=
  match l with
  | .word n false => n == name
  | _ => false

def word? : Lexeme → Option String
  | .word n _ => some n
  | _ => none

end Lexeme

/-! Space and comments between tokens. -/

structure Gap where
  pos : Nat
  rest : Text
  fresh : Bool
  remarks : List Remark := []
  /-- A block comment was left open. -/
  torn : Bool := false
  deriving Repr, Inhabited

def Gap.skip : Nat → Gap → Gap
  | 0, g => g
  | fuel + 1, g =>
    match g.rest with
    | '/' :: '/' :: cs =>
      let body := cs.takeWhile (!isLineEnd ·)
      let hi := g.pos + 2 + Text.bytes body
      skip fuel { g with
        pos := hi, rest := cs.drop body.length, remarks := ⟨.line, body, g.pos, hi⟩ :: g.remarks }
    | '/' :: '*' :: cs =>
      match Text.splitOnce? ['*', '/'] cs with
      | some (body, rest) =>
        let hi := g.pos + 4 + Text.bytes body
        skip fuel { g with
          pos := hi, rest, fresh := g.fresh || body.any isLineEnd
          remarks := ⟨.block, body, g.pos, hi⟩ :: g.remarks }
      | none => { g with torn := true }
    | c :: cs =>
      if isLineEnd c then skip fuel { g with pos := g.pos + c.utf8Size, rest := cs, fresh := true }
      else if isSpace c then skip fuel { g with pos := g.pos + c.utf8Size, rest := cs }
      else g
    | [] => g

/-! Numbers. -/

def isBinary (c : Char) : Bool := c == '0' || c == '1'
def isOctal (c : Char) : Bool := '0' ≤ c && c ≤ '7'

def startsWithAny (p : Char → Bool) : Text → Bool
  | c :: _ => p c
  | [] => false

def afterDigits? (p : Char → Bool) : Bool → Text → Option Text
  | seen, '_' :: cs => if seen && startsWithAny p cs then afterDigits? p false cs else none
  | seen, c :: cs =>
    if p c then afterDigits? p true cs else if seen then some (c :: cs) else none
  | seen, [] => if seen then some [] else none

def afterExponent? : Text → Option Text
  | 'e' :: '+' :: cs | 'e' :: '-' :: cs | 'E' :: '+' :: cs | 'E' :: '-' :: cs =>
    afterDigits? Char.isDigit false cs
  | 'e' :: cs | 'E' :: cs => afterDigits? Char.isDigit false cs
  | cs => some cs

def afterPoint? (cs : Text) : Option Text :=
  if startsWithAny Char.isDigit cs then (afterDigits? Char.isDigit false cs).bind afterExponent?
  else afterExponent? cs

def skipBig : Text → Text
  | 'n' :: cs => cs
  | cs => cs

def afterNumber? : Text → Option Text
  | '0' :: 'x' :: cs | '0' :: 'X' :: cs => (afterDigits? isHex false cs).map skipBig
  | '0' :: 'o' :: cs | '0' :: 'O' :: cs => (afterDigits? isOctal false cs).map skipBig
  | '0' :: 'b' :: cs | '0' :: 'B' :: cs => (afterDigits? isBinary false cs).map skipBig
  | '0' :: c :: cs =>
    if c.isDigit || c == '_' then none
    else if c == '.' then afterPoint? cs
    else if c == 'n' then some cs
    else afterExponent? (c :: cs)
  | '.' :: cs => afterPoint? cs
  | cs =>
    match afterDigits? Char.isDigit false cs with
    | some ('n' :: rest) => some rest
    | some ('.' :: rest) => afterPoint? rest
    | some rest => afterExponent? rest
    | none => none

/-! Escapes, strings, templates, regular expressions. -/

def codePoint? : Text → Option (Nat × Text)
  | '\x7b' :: cs =>
    let digits := cs.takeWhile isHex
    match cs.drop digits.length with
    | '\x7d' :: rest =>
      if !digits.isEmpty && hexValue digits ≤ 0x10FFFF then some (hexValue digits, rest) else none
    | _ => none
  | cs =>
    let digits := cs.take 4
    if digits.length = 4 && digits.all isHex then some (hexValue digits, cs.drop 4) else none

def afterEscape? : Text → Option Text
  | 'x' :: a :: b :: cs => if isHex a && isHex b then some cs else none
  | 'x' :: _ => none
  | 'u' :: cs => (codePoint? cs).map (·.2)
  | '\r' :: '\n' :: cs => some cs
  | '0' :: cs => if startsWithAny Char.isDigit cs then none else some cs
  | c :: cs => if c.isDigit then none else some cs
  | [] => none

def afterString? (quote : Char) : Nat → Text → Option Text
  | 0, _ => none
  | _ + 1, [] => none
  | fuel + 1, c :: cs =>
    if c == quote then some cs
    else if c == '\\' then (afterEscape? cs).bind (afterString? quote fuel)
    else if c == '\n' || c == '\r' then none
    else afterString? quote fuel cs

structure TemplateRun where
  rest : Text
  /-- At the closing backquote; otherwise at a hole. -/
  closed : Bool
  /-- It holds an escape that only a tagged template may hold. -/
  odd : Bool
  deriving Repr, Inhabited

def templateRun? : Nat → Bool → Text → Option TemplateRun
  | 0, _, _ => none
  | _ + 1, _, [] => none
  | _ + 1, odd, '\x60' :: cs => some ⟨cs, true, odd⟩
  | _ + 1, odd, '$' :: '\x7b' :: cs => some ⟨cs, false, odd⟩
  | fuel + 1, odd, '\\' :: cs =>
    match afterEscape? cs with
    | some rest => templateRun? fuel odd rest
    | none => templateRun? fuel true (cs.drop 1)
  | fuel + 1, odd, _ :: cs => templateRun? fuel odd cs

def afterRegex? : Bool → Text → Option Text
  | _, [] => none
  | inClass, '\\' :: c :: cs => if isLineEnd c then none else afterRegex? inClass cs
  | inClass, c :: cs =>
    if isLineEnd c then none
    else if c == '/' && !inClass then some cs
    else if c == '[' then afterRegex? true cs
    else if c == ']' then afterRegex? false cs
    else afterRegex? inClass cs

def goodFlags : Text → Bool
  | [] => true
  | c :: cs => "dgimsuvy".toList.contains c && !cs.contains c && goodFlags cs

/-! Words and marks. -/

def escapedWord? : Nat → Text → Text → Option (Text × Text)
  | 0, _, _ => none
  | fuel + 1, name, '\\' :: 'u' :: cs =>
    match codePoint? cs with
    | some (n, rest) =>
      let c := Char.ofNat n
      if isNamePart c && (!name.isEmpty || isNameStart c) then escapedWord? fuel (c :: name) rest
      else none
    | none => none
  | fuel + 1, name, c :: cs =>
    if c == '\\' then none
    else if isNamePart c then escapedWord? fuel (c :: name) cs
    else some (name, c :: cs)
  | _ + 1, name, [] => some (name, [])

def signs : List (Text × String) :=
  ["...", "===", "!==", "**=", "<<=", "&&=", "||=", "??=", "=>", "==", "!=", "<=", "<<", "++",
   "--", "+=", "-=", "**", "*=", "/=", "%=", "&&", "&=", "||", "|=", "^=", "??", "?.", "\x7b", "\x7d",
   "(", ")", "[", "]", ";", ",", ".", "<", ">", "=", "!", "+", "-", "*", "/", "%", "&", "|", "^",
   "~", "?", ":", "\x60", "@"].map fun s => (s.toList, s)

/-- The first of the signs that starts a text, and what follows it. -/
def firstSign? (signs : List (Text × String)) (cs : Text) : Option (String × Text) :=
  signs.findSome? fun (s, name) => (Text.after? s cs).map fun rest => (name, rest)

def sign? (cs : Text) : Option (String × Text) :=
  match cs with
  | '?' :: '.' :: d :: _ => if d.isDigit then some ("?", cs.drop 1) else some ("?.", cs.drop 2)
  | _ => firstSign? signs cs

def isRelicComment (fresh : Bool) (cs : Text) : Bool :=
  Text.startsWith "<!--".toList cs || (fresh && Text.startsWith "-->".toList cs)

/-- The lexeme at the start of a text and what follows it. -/
def Lexeme.read (fresh : Bool) (cs : Text) : Lexeme × Text :=
  match cs with
  | [] => (.done, [])
  | c :: tail =>
    if isNameStart c || c == '\\' then
      let name := cs.takeWhile isNamePart
      let rest := cs.drop name.length
      if startsWithAny (· == '\\') rest then
        match escapedWord? (cs.length + 1) [] cs with
        | some (name, rest) => (.word (String.ofList name.reverse) true, rest)
        | none => (.bad, cs)
      else (.word (String.ofList name) false, rest)
    else if c.isDigit || (c == '.' && startsWithAny Char.isDigit tail) then
      match afterNumber? cs with
      | some rest =>
        if startsWithAny (fun d => isNameStart d || d.isDigit || d == '\\') rest then (.bad, cs)
        else (.number, rest)
      | none => (.bad, cs)
    else if c == '"' || c == '\'' then
      (.quoted, (afterString? c cs.length tail).getD cs)
    else if c == '#' then
      let name := tail.takeWhile isNamePart
      if startsWithAny isNameStart tail then (.hashName, tail.drop name.length) else (.bad, cs)
    else if isRelicComment fresh cs then (.bad, cs)
    else match sign? cs with
      | some (sign, rest) => (.mark sign, rest)
      | none => (.bad, cs)

/-- The token behind a gap. -/
def Token.behind (gap : Gap) : Token :=
  let (lexeme, rest) := Lexeme.read gap.fresh gap.rest
  let hi := gap.pos + Text.bytes (gap.rest.take (gap.rest.length - rest.length))
  ⟨lexeme, gap.pos, hi, gap.fresh, gap.rest, rest, gap.remarks⟩

/-- The token that comes next in `rest`, which starts at `pos`. -/
def Token.next (pos : Nat) (rest : Text) (fresh : Bool) : Token :=
  let gap := Gap.skip rest.length { pos, rest, fresh }
  if gap.torn then ⟨.bad, gap.pos, gap.pos, gap.fresh, gap.rest, gap.rest, gap.remarks⟩
  else .behind gap

/-! A second look. -/

def greaterSigns : List (Text × String) :=
  [">>>=", ">>>", ">>=", ">>", ">=", ">"].map fun s => (s.toList, s)

def Token.operator (k : Token) : Option String :=
  match k.lexeme with
  | .mark ">" => (firstSign? greaterSigns k.here).map (·.1)
  | .mark s => some s
  | _ => none

def endsMarkupText (c : Char) : Bool := c == '<' || c == '>' || c == '\x7b' || c == '\x7d'

/-- How far the text is taken from a token on. -/
inductive Reach where
  | token
  /-- All of the operator that starts there. -/
  | operator
  /-- One less-than sign. -/
  | less
  | regex
  /-- A name with dashes. -/
  | tagName
  /-- Quoted characters without escapes. -/
  | quoted
  /-- A backquote or a closing brace, and the template characters behind it. -/
  | template
  /-- A greater-than sign or a closing brace; behind it stands raw text. -/
  | words
  deriving DecidableEq, Repr, Inhabited

/-- What is left behind quoted characters. -/
def afterQuoted? : Text → Option Text
  | quote :: cs =>
    if quote == '"' || quote == '\'' then
      match cs.drop (cs.takeWhile (· != quote)).length with
      | _ :: rest => some rest
      | [] => none
    else none
  | [] => none

def afterFlags? (cs : Text) : Option Text :=
  let flags := cs.takeWhile isNamePart
  if goodFlags flags then some (cs.drop flags.length) else none

def Reach.rest? (k : Token) : Reach → Option Text
  | token | words => some k.rest
  | operator =>
    match k.operator with
    | some sign => some (k.here.drop sign.length)
    | none => some k.rest
  | less =>
    match k.here with
    | '<' :: cs => some cs
    | _ => none
  | regex => (afterRegex? false (k.here.drop 1)).bind afterFlags?
  | tagName => some (k.here.drop (k.here.takeWhile fun c => isNamePart c || c == '-').length)
  | quoted => afterQuoted? k.here
  | template => (templateRun? k.here.length false (k.here.drop 1)).map (·.rest)

/-- The tokens from which the text is taken so. -/
def Reach.fits (how : Reach) (l : Lexeme) : Bool :=
  match how with
  | token | operator | less => true
  | regex => l.isMark "/" || l.isMark "/="
  | tagName => (match l with | .word _ escaped => !escaped | _ => false)
  | quoted => l == .quoted
  | template => l.isMark "\x60" || l.isMark "\x7d"
  | words => l.isMark ">" || l.isMark "\x7d"

end Quell.Grammar
