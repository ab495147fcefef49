/-!
Text as a list of characters, addressed by UTF-8 byte offsets.

Every cut below answers `none` when an offset falls inside a character or past the end, so a
byte range that comes from elsewhere is never trusted.
-/
namespace Quell

abbrev Text := List Char

namespace Text

/-- Bytes that a text takes in UTF-8. -/
def bytes : Text → Nat
  | [] => 0
  | c :: cs => c.utf8Size + bytes cs

def dropBytes? : Nat → Text → Option Text
  | 0, cs => some cs
  | _ + 1, [] => none
  | n + 1, c :: cs => if c.utf8Size ≤ n + 1 then dropBytes? (n + 1 - c.utf8Size) cs else none

def takeBytes? : Nat → Text → Option Text
  | 0, _ => some []
  | _ + 1, [] => none
  | n + 1, c :: cs =>
    if c.utf8Size ≤ n + 1 then (takeBytes? (n + 1 - c.utf8Size) cs).map (c :: ·) else none

/-- The bytes from `lo` up to `hi`. -/
def slice? (lo hi : Nat) (cs : Text) : Option Text :=
  if lo ≤ hi then (dropBytes? lo cs).bind (takeBytes? (hi - lo)) else none

@[simp] theorem bytes_append (a b : Text) : bytes (a ++ b) = bytes a + bytes b := by
  induction a with
  | nil => simp [bytes]
  | cons c cs ih => simp only [List.cons_append, bytes, ih, Nat.add_assoc]

theorem exists_utf8Size (c : Char) (n : Nat) : ∃ m, c.utf8Size + n = m + 1 :=
  ⟨c.utf8Size - 1 + n, by have := c.utf8Size_pos; omega⟩

theorem dropBytes?_cons (c : Char) (cs : Text) (n : Nat) :
    dropBytes? (c.utf8Size + n) (c :: cs) = dropBytes? n cs := by
  obtain ⟨m, hm⟩ := exists_utf8Size c n
  have fits : c.utf8Size ≤ m + 1 := by omega
  have left : m + 1 - c.utf8Size = n := by omega
  rw [hm, dropBytes?, if_pos fits, left]

theorem takeBytes?_cons (c : Char) (cs : Text) (n : Nat) :
    takeBytes? (c.utf8Size + n) (c :: cs) = (takeBytes? n cs).map (c :: ·) := by
  obtain ⟨m, hm⟩ := exists_utf8Size c n
  have fits : c.utf8Size ≤ m + 1 := by omega
  have left : m + 1 - c.utf8Size = n := by omega
  rw [hm, takeBytes?, if_pos fits, left]

theorem dropBytes?_append (a b : Text) : dropBytes? (bytes a) (a ++ b) = some b := by
  induction a with
  | nil => simp [bytes, dropBytes?]
  | cons c cs ih => rw [bytes, List.cons_append, dropBytes?_cons, ih]

theorem takeBytes?_append (a b : Text) : takeBytes? (bytes a) (a ++ b) = some a := by
  induction a with
  | nil => simp [bytes, takeBytes?]
  | cons c cs ih => rw [bytes, List.cons_append, takeBytes?_cons, ih, Option.map_some]

theorem slice?_append (a b c : Text) :
    slice? (bytes a) (bytes a + bytes b) (a ++ b ++ c) = some b := by
  simp only [slice?, Nat.le_add_right, if_true, Nat.add_sub_cancel_left, List.append_assoc,
    dropBytes?_append, Option.bind_some, takeBytes?_append]

def isBoundary (n : Nat) (cs : Text) : Bool := (dropBytes? n cs).isSome

/-- Number of line feeds. -/
def breaks (cs : Text) : Nat := cs.count '\n'

def splitOn (sep : Char) : Text → List Text
  | [] => [[]]
  | c :: cs =>
    if c = sep then [] :: splitOn sep cs
    else match splitOn sep cs with
      | [] => [[c]]
      | p :: ps => (c :: p) :: ps

def joinWith (sep : Text) : List Text → Text
  | [] => []
  | [p] => p
  | p :: q :: ps => p ++ sep ++ joinWith sep (q :: ps)

def after? : Text → Text → Option Text
  | [], cs => some cs
  | _ :: _, [] => none
  | p :: ps, c :: cs => if p = c then after? ps cs else none

def startsWith (pre cs : Text) : Bool := (after? pre cs).isSome

def splitOnce? (sep : Text) : Text → Option (Text × Text)
  | [] => if sep.isEmpty then some ([], []) else none
  | c :: cs =>
    match after? sep (c :: cs) with
    | some rest => some ([], rest)
    | none => (splitOnce? sep cs).map fun (a, b) => (c :: a, b)

/-- `sep` occurs somewhere. -/
def holds (sep cs : Text) : Bool := (splitOnce? sep cs).isSome

def splitLast? (sep : Char) : Text → Option (Text × Text)
  | [] => none
  | c :: cs =>
    match splitLast? sep cs with
    | some (a, b) => some (c :: a, b)
    | none => if c = sep then some ([], cs) else none

def dropLast? (c : Char) (cs : Text) : Option Text :=
  if cs.getLast? = some c then some cs.dropLast else none

def lastLine (cs : Text) : Text :=
  match splitLast? '\n' cs with
  | some (_, line) => line
  | none => cs

def firstLine (cs : Text) : Text := cs.takeWhile (· != '\n')

def ofNat (n : Nat) : Text := Nat.toDigits 10 n

end Text
end Quell
