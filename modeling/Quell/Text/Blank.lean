import Quell.Text.Basic

/-!
Blank characters are those with the Unicode property White_Space. The zero-width space, the
Mongolian vowel separator, the byte order mark and the separators U+001C to U+001F have it not.
-/
namespace Quell

def blankRanges : List (Nat × Nat) :=
  [(0x9, 0xD), (0x20, 0x20), (0x85, 0x85), (0xA0, 0xA0), (0x1680, 0x1680), (0x2000, 0x200A),
   (0x2028, 0x2029), (0x202F, 0x202F), (0x205F, 0x205F), (0x3000, 0x3000)]

def isBlank (c : Char) : Bool := blankRanges.any fun (lo, hi) => lo ≤ c.toNat && c.toNat ≤ hi

namespace Text

def trimStart (cs : Text) : Text := cs.dropWhile isBlank

def trimEnd (cs : Text) : Text := (cs.reverse.dropWhile isBlank).reverse

def trim (cs : Text) : Text := trimEnd (trimStart cs)

/-- Nothing but blank characters, or nothing at all. -/
def allBlank (cs : Text) : Bool := cs.all isBlank

end Text
end Quell
