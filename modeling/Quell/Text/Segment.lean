import Quell.Text.Blank

/-!
Segmentation: a text falls into line breaks, blank runs and content runs.

A line gives its leading blanks, its content and its trailing blanks; a blank line stays whole.
A carriage return directly before a line feed belongs to the break.
-/
namespace Quell.Text

def segmentLine (line : Text) : List Text :=
  let body := trimEnd line
  let content := trimStart body
  if content.isEmpty then [line].filter (!·.isEmpty)
  else [body.take (body.length - content.length), content, line.drop body.length].filter
    (!·.isEmpty)

def segmentEnded (raw : Text) : List Text :=
  match dropLast? '\r' raw with
  | some line => segmentLine line ++ [['\r', '\n']]
  | none => segmentLine raw ++ [['\n']]

def segmentLines : List Text → List Text
  | [] => []
  | [last] => segmentLine last
  | raw :: next :: rest => segmentEnded raw ++ segmentLines (next :: rest)

def segments (cs : Text) : List Text := segmentLines (splitOn '\n' cs)

def ranged : Nat → List Text → List (Nat × Nat × Text)
  | _, [] => []
  | start, p :: ps => (start, start + bytes p, p) :: ranged (start + bytes p) ps

/-- The fragments of a text with their byte ranges. -/
def segmentRanges (cs : Text) : List (Nat × Nat × Text) := ranged 0 (segments cs)

def startsWithBreak (cs : Text) : Bool := startsWith ['\n'] cs || startsWith ['\r', '\n'] cs

end Quell.Text
