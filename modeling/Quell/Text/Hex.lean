import Quell.Text.Basic

/-!
Hexadecimal digits.
-/
namespace Quell

def isHex (c : Char) : Bool :=
  c.isDigit || ('a' ≤ c && c ≤ 'f') || ('A' ≤ c && c ≤ 'F')

def hexValue (cs : Text) : Nat :=
  cs.foldl (fun n c =>
    n * 16 + (if c.isDigit then c.toNat - 48 else if 'a' ≤ c then c.toNat - 87 else c.toNat - 55)) 0

end Quell
