import Quell.Glob.Basic

/-!
Matching a pattern against a path, byte by byte: a character outside ASCII is several bytes, so a
question mark does not match it, and in a class each of its bytes counts.
-/
namespace Quell
namespace Glob

abbrev Bytes := List UInt8

def utf8 (t : Text) : Bytes := t.flatMap String.utf8EncodeChar

def slash : UInt8 := 47

def suffixesWhile (p : UInt8 → Bool) : Bytes → List Bytes
  | [] => [[]]
  | b :: bs => (b :: bs) :: if p b then suffixesWhile p bs else []

def suffixesBehindSlash : Bytes → List Bytes
  | [] => []
  | b :: bs => if b == slash then bs :: suffixesBehindSlash bs else suffixesBehindSlash bs

def behind? : Bytes → Bytes → Option Bytes
  | [], bs => some bs
  | _ :: _, [] => none
  | p :: ps, b :: bs => if p == b then behind? ps bs else none

/-- A range of characters as ranges of bytes: only the last byte of the first character and the
first byte of the last character span a range. -/
def byteRanges (range : Char × Char) : List (UInt8 × UInt8) :=
  let lo := String.utf8EncodeChar range.1
  let hi := String.utf8EncodeChar range.2
  if range.1 == range.2 then lo.map fun b => (b, b)
  else
    lo.dropLast.map (fun b => (b, b)) ++ [(lo.getLast?.getD 0, hi.head?.getD 0)] ++
      hi.tail.map fun b => (b, b)

def inRanges (ranges : List (Char × Char)) (b : UInt8) : Bool :=
  (ranges.flatMap byteRanges).any fun (lo, hi) => lo ≤ b && b ≤ hi

mutual

/-- A branch that matches nothing but the empty text, because it has no tokens that match
anything. -/
def isVoid : List GlobToken → Bool
  | [] => true
  | .choice branches :: rest => allVoid branches && isVoid rest
  | _ => false

def allVoid : List (List GlobToken) → Bool
  | [] => true
  | b :: bs => isVoid b && allVoid bs

end

mutual

def matchToken (k : Bytes → Bool) (bs : Bytes) : GlobToken → Bool
  | .char c =>
    match behind? (String.utf8EncodeChar c) bs with
    | some rest => k rest
    | none => false
  | .any =>
    match bs with
    | b :: rest => b != slash && k rest
    | [] => false
  | .star => (suffixesWhile (· != slash) bs).any k
  | .anyBefore =>
    k bs || (match bs with
      | b :: rest => b == slash && k rest
      | [] => false) || (suffixesBehindSlash bs).any k
  | .anyBetween =>
    match bs with
    | b :: rest => b == slash && (k rest || (suffixesBehindSlash rest).any k)
    | [] => false
  | .anyBelow =>
    match bs with
    | b :: rest => b == slash && (suffixesWhile (fun _ => true) rest).any k
    | [] => false
  | .oneOf negated ranges =>
    match bs with
    | b :: rest => (inRanges ranges b != negated) && k rest
    | [] => false
  | .choice branches => if allVoid branches then k bs else matchAny k bs branches

def matchAll (k : Bytes → Bool) (bs : Bytes) : List GlobToken → Bool
  | [] => k bs
  | t :: ts => matchToken (fun rest => matchAll k rest ts) bs t

def matchAny (k : Bytes → Bool) (bs : Bytes) : List (List GlobToken) → Bool
  | [] => false
  | b :: rest => (!isVoid b && matchAll k bs b) || matchAny k bs rest

end

def accepts (g : Glob) (path : Text) : Bool :=
  match g with
  | [.anyBefore] => true
  | g => matchAll List.isEmpty (utf8 path) g

end Glob
end Quell
