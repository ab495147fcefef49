import Quell.Json.Basic
import Quell.Text.Hex

/-!
Reading JSON. The grammar is the strict one: no comments, no trailing commas, no leading zeros, no
control characters in strings, and nothing behind the value.
-/
namespace Quell
namespace Json

def isGap (c : Char) : Bool := c == ' ' || c == '\n' || c == '\t' || c == '\r'

def skipGap (cs : Text) : Text := cs.dropWhile isGap

/-! Strings. -/

def shortEscape? : Char → Option Char
  | '"' => some '"'
  | '\\' => some '\\'
  | '/' => some '/'
  | 'b' => some '\x08'
  | 'f' => some '\x0c'
  | 'n' => some '\n'
  | 'r' => some '\r'
  | 't' => some '\t'
  | _ => none

def unit? (cs : Text) : Option (Nat × Text) :=
  let digits := cs.take 4
  if digits.length = 4 && digits.all isHex then some (hexValue digits, cs.drop 4) else none

def isHighHalf (n : Nat) : Bool := 0xD800 ≤ n && n < 0xDC00
def isLowHalf (n : Nat) : Bool := 0xDC00 ≤ n && n < 0xE000

def lowHalf? : Text → Option (Nat × Text)
  | '\\' :: 'u' :: cs =>
    match unit? cs with
    | some (n, rest) => if isLowHalf n then some (n, rest) else none
    | none => none
  | _ => none

def unitChar (n : Nat) (rest : Text) : Option Char × Text :=
  if isHighHalf n then
    match lowHalf? rest with
    | some (m, rest) => (some (Char.ofNat (0x10000 + (n - 0xD800) * 0x400 + (m - 0xDC00))), rest)
    | none => (none, rest)
  else if isLowHalf n then (none, rest)
  else (some (Char.ofNat n), rest)

def escape? : Text → Option (Option Char × Text)
  | 'u' :: cs => (unit? cs).map fun (n, rest) => unitChar n rest
  | c :: cs => (shortEscape? c).map fun d => (some d, cs)
  | [] => none

def stringTail? : Nat → Text → Option (Option Text × Text)
  | 0, _ => none
  | _ + 1, [] => none
  | fuel + 1, c :: cs =>
    if c == '"' then some (some [], cs)
    else if c == '\\' then
      (escape? cs).bind fun (d, rest) =>
        (stringTail? fuel rest).map fun (t, rest) =>
          (d.bind fun d => t.map (d :: ·), rest)
    else if c.toNat < 0x20 then none
    else (stringTail? fuel cs).map fun (t, rest) => (t.map (c :: ·), rest)

/-! Numbers. -/

def digits? (cs : Text) : Option (Text × Text) :=
  let ds := cs.takeWhile Char.isDigit
  if ds.isEmpty then none else some (ds, cs.drop ds.length)

def whole? (cs : Text) : Option (Text × Text) :=
  match digits? cs with
  | some ('0' :: _ :: _, _) => none
  | r => r

def fraction? : Text → Option (Text × Text)
  | '.' :: cs => (digits? cs).map fun (ds, rest) => ('.' :: ds, rest)
  | cs => some ([], cs)

def exponentDigits? (mark : Text) (cs : Text) : Option (Text × Text) :=
  (digits? cs).map fun (ds, rest) => (mark ++ ds, rest)

def exponent? : Text → Option (Text × Text)
  | [] => some ([], [])
  | c :: cs =>
    if c == 'e' || c == 'E' then
      match cs with
      | '+' :: ds => exponentDigits? [c, '+'] ds
      | '-' :: ds => exponentDigits? [c, '-'] ds
      | ds => exponentDigits? [c] ds
    else some ([], c :: cs)

def unsigned? (cs : Text) : Option (Text × Text) :=
  (whole? cs).bind fun (w, cs) =>
    (fraction? cs).bind fun (f, cs) =>
      (exponent? cs).map fun (e, cs) => (w ++ f ++ e, cs)

def number? : Text → Option (Text × Text)
  | '-' :: cs => (unsigned? cs).map fun (n, rest) => ('-' :: n, rest)
  | cs => unsigned? cs

/-! Values. -/

mutual

def value? : Nat → Text → Option (Json × Text)
  | 0, _ => none
  | fuel + 1, cs =>
    match skipGap cs with
    | '\x7b' :: cs =>
      match skipGap cs with
      | '\x7d' :: rest => some (object [], rest)
      | cs => (members? fuel cs).map fun (fs, rest) => (object fs, rest)
    | '[' :: cs =>
      match skipGap cs with
      | ']' :: rest => some (array [], rest)
      | cs => (items? fuel cs).map fun (js, rest) => (array js, rest)
    | '"' :: cs => (stringTail? (cs.length + 1) cs).map fun (t, rest) => (string t, rest)
    | 'n' :: 'u' :: 'l' :: 'l' :: rest => some (null, rest)
    | 't' :: 'r' :: 'u' :: 'e' :: rest => some (bool true, rest)
    | 'f' :: 'a' :: 'l' :: 's' :: 'e' :: rest => some (bool false, rest)
    | cs => (number? cs).map fun (n, rest) => (number n, rest)

def items? : Nat → Text → Option (List Json × Text)
  | 0, _ => none
  | fuel + 1, cs =>
    match value? fuel cs with
    | none => none
    | some (j, cs) =>
      match skipGap cs with
      | ']' :: rest => some ([j], rest)
      | ',' :: cs => (items? fuel cs).map fun (js, rest) => (j :: js, rest)
      | _ => none

def members? : Nat → Text → Option (List (Option Text × Json) × Text)
  | 0, _ => none
  | fuel + 1, cs =>
    match member? fuel cs with
    | none => none
    | some (f, cs) =>
      match skipGap cs with
      | '\x7d' :: rest => some ([f], rest)
      | ',' :: cs => (members? fuel cs).map fun (fs, rest) => (f :: fs, rest)
      | _ => none

def member? : Nat → Text → Option ((Option Text × Json) × Text)
  | 0, _ => none
  | fuel + 1, cs =>
    match skipGap cs with
    | '"' :: cs =>
      match stringTail? (cs.length + 1) cs with
      | none => none
      | some (key, cs) =>
        match skipGap cs with
        | ':' :: cs => (value? fuel cs).map fun (j, rest) => ((key, j), rest)
        | _ => none
    | _ => none

end

/-- The value that a text spells. -/
def read? (cs : Text) : Option Json :=
  match value? (3 * cs.length + 3) cs with
  | some (j, rest) => if (skipGap rest).isEmpty then some j else none
  | none => none

end Json
end Quell
