import Quell.Text.Basic

/-!
Line numbers of byte offsets. Lines are counted from one and only a line feed ends one; it
belongs to the line that it ends.
-/
namespace Quell

/-- The terminator that a text is written with. -/
inductive LineEnding where
  | lf
  | crlf
  deriving DecidableEq, Repr, Inhabited

namespace LineEnding

def text : LineEnding → Text
  | lf => ['\n']
  | crlf => ['\r', '\n']

/-- Carriage return and line feed as soon as the pair occurs once. -/
def detect (source : Text) : LineEnding := if Text.holds ['\r', '\n'] source then crlf else lf

end LineEnding

def Text.dropReturn (line : Text) : Text := (Text.dropLast? '\r' line).getD line

def Text.endLines : List Text → List Text
  | [] => []
  | [last] => if last.isEmpty then [] else [last]
  | line :: rest => line.dropReturn :: endLines rest

/-- The lines of a text without their ends. -/
def Text.lines (t : Text) : List Text := Text.endLines (Text.splitOn '\n' t)

structure LineIndex where
  starts : List Nat
  deriving Repr, Inhabited

namespace LineIndex

def startsFrom : Nat → Text → List Nat
  | _, [] => []
  | start, c :: cs =>
    let next := start + c.utf8Size
    if c = '\n' then next :: startsFrom next cs else startsFrom next cs

def of (source : Text) : LineIndex := ⟨0 :: startsFrom 0 source⟩

def lineOf (index : LineIndex) (offset : Nat) : Nat :=
  index.starts.countP (· ≤ offset)

end LineIndex
end Quell
