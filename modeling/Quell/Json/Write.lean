import Quell.Json.Basic

/-!
Writing JSON, on one line or with two blanks of indentation a level.
-/
namespace Quell
namespace Json

def hexDigit (n : Nat) : Char := Nat.digitChar n

def quotedChar (c : Char) : Text :=
  if c == '"' then ['\\', '"']
  else if c == '\\' then ['\\', '\\']
  else if c == '\n' then ['\\', 'n']
  else if c == '\r' then ['\\', 'r']
  else if c == '\t' then ['\\', 't']
  else if c == '\x08' then ['\\', 'b']
  else if c == '\x0c' then ['\\', 'f']
  else if c.toNat < 0x20 then
    ['\\', 'u', '0', '0', hexDigit (c.toNat / 16), hexDigit (c.toNat % 16)]
  else [c]

def quoted (t : Text) : Text := '"' :: t.flatMap quotedChar ++ ['"']

def leaf : Json → Text
  | bool true => "true".toList
  | bool false => "false".toList
  | number spelling => spelling
  | string value => quoted (value.getD [])
  | _ => "null".toList

mutual

/-- On one line. -/
def compact : Json → Text
  | array items => '[' :: compactItems items ++ [']']
  | object fields => '\x7b' :: compactFields fields ++ ['\x7d']
  | j => leaf j

def compactItems : List Json → Text
  | [] => []
  | [j] => compact j
  | j :: js => compact j ++ ',' :: compactItems js

def compactFields : List (Option Text × Json) → Text
  | [] => []
  | [(key, j)] => quoted (key.getD []) ++ ':' :: compact j
  | (key, j) :: fs => quoted (key.getD []) ++ ':' :: compact j ++ ',' :: compactFields fs

end

def newLine (level : Nat) : Text := '\n' :: List.replicate (2 * level) ' '

mutual

def prettyAt (level : Nat) : Json → Text
  | array [] => ['[', ']']
  | object [] => ['\x7b', '\x7d']
  | array items => '[' :: prettyItems (level + 1) items ++ newLine level ++ [']']
  | object fields => '\x7b' :: prettyFields (level + 1) fields ++ newLine level ++ ['\x7d']
  | j => leaf j

def prettyItems (level : Nat) : List Json → Text
  | [] => []
  | [j] => newLine level ++ prettyAt level j
  | j :: js => newLine level ++ prettyAt level j ++ ',' :: prettyItems level js

def prettyFields (level : Nat) : List (Option Text × Json) → Text
  | [] => []
  | [(key, j)] => newLine level ++ quoted (key.getD []) ++ ':' :: ' ' :: prettyAt level j
  | (key, j) :: fs =>
    newLine level ++ quoted (key.getD []) ++ ':' :: ' ' :: prettyAt level j
      ++ ',' :: prettyFields level fs

end

def pretty (j : Json) : Text := prettyAt 0 j

def ofFields (fields : List (String × Json)) : Json :=
  object (fields.map fun (name, j) => (some name.toList, j))

end Json
end Quell
