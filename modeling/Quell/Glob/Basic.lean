import Quell.Text.Basic

/-!
Glob patterns: what they are made of, and how a text spells one.

A star stays inside one name of a path. Two stars that fill a whole name match any number of names;
anywhere else they are two single stars.
-/
namespace Quell

inductive GlobToken where
  | char (c : Char)
  /-- One byte within a name. -/
  | any
  /-- Any bytes within a name. -/
  | star
  /-- Any names in front. -/
  | anyBefore
  /-- Any names in between. -/
  | anyBetween
  /-- Everything below. -/
  | anyBelow
  | oneOf (negated : Bool) (ranges : List (Char × Char))
  | choice (branches : List (List GlobToken))
  deriving Repr, Inhabited

abbrev Glob := List GlobToken

inductive GlobError where
  | unclosedClass
  | invalidRange (lo hi : Char)
  | unopenedGroup
  | unclosedGroup
  | danglingEscape
  deriving DecidableEq, Repr, Inhabited

namespace GlobError

def message : GlobError → Text
  | unclosedClass => "unclosed character class; missing ']'".toList
  | invalidRange lo hi => "invalid range; '".toList ++ lo :: "' > '".toList ++ hi :: ['\'']
  | unopenedGroup =>
    "unopened alternate group; missing '\x7b' (maybe escape '\x7d' with '[\x7d]'?)".toList
  | unclosedGroup =>
    "unclosed alternate group; missing '\x7d' (maybe escape '\x7b' with '[\x7b]'?)".toList
  | danglingEscape => "dangling '\\'".toList

end GlobError

namespace Glob

/-! Character classes. -/

/-- A class that is being read: its ranges, last one first, and whether a hyphen waits for the end
of a range. -/
structure ClassState where
  ranges : List (Char × Char) := []
  pending : Bool := false

/-- Close the range that a hyphen opened, or add a single character. -/
def ClassState.add (s : ClassState) (c : Char) : Except GlobError ClassState :=
  match s.pending, s.ranges with
  | true, (lo, _) :: rest =>
    if c < lo then .error (.invalidRange lo c) else .ok ⟨(lo, c) :: rest, false⟩
  | _, ranges => .ok ⟨(c, c) :: ranges, false⟩

def ClassState.hyphen (s : ClassState) (first : Bool) : Except GlobError ClassState :=
  if first || s.pending then s.add '-' else .ok { s with pending := true }

def ClassState.finish (s : ClassState) : List (Char × Char) :=
  (if s.pending then ('-', '-') :: s.ranges else s.ranges).reverse

/-- The ranges of a class up to its closing bracket, and what follows. There are none if the
bracket is missing. -/
def classTail (s : ClassState) (first : Bool) :
    Text → Except GlobError (Option (List (Char × Char) × Text))
  | [] => .ok none
  | c :: cs =>
    if c == ']' && !first then .ok (some (s.finish, cs))
    else
      match if c == '-' then s.hyphen first else s.add c with
      | .error e => .error e
      | .ok s => classTail s false cs

def class? (cs : Text) : Except GlobError (Option (GlobToken × Text)) :=
  let (negated, cs) := match cs with
    | '!' :: cs => (true, cs)
    | '^' :: cs => (true, cs)
    | cs => (false, cs)
  (classTail {} true cs).map fun found => found.map fun (ranges, rest) =>
    (.oneOf negated ranges, rest)

/-! Patterns. -/

/-- A group that is being read: its finished branches, last one first, and the tokens that stood in
front of the group, last one first. -/
structure Group where
  branches : List Glob := []
  before : List GlobToken

structure State where
  /-- The current branch, last token first. -/
  tokens : List GlobToken := []
  /-- The groups around it, innermost first. -/
  groups : List Group := []
  /-- The character read last. -/
  last : Option Char := none
  /-- A class was left open; brackets stand for themselves from there on. -/
  literal : Bool := false

namespace State

def push (s : State) (t : GlobToken) : State := { s with tokens := t :: s.tokens }

def inGroup (s : State) : Bool := !s.groups.isEmpty

def openGroup (s : State) : State :=
  { s with tokens := [], groups := { before := s.tokens } :: s.groups }

/-- A comma divides the branches of a group, and elsewhere stands for itself. -/
def comma (s : State) : State :=
  match s.groups with
  | [] => s.push (.char ',')
  | g :: gs => { s with tokens := [], groups := { g with branches := s.tokens.reverse :: g.branches } :: gs }

def closeGroup (s : State) : Except GlobError State :=
  match s.groups with
  | [] => .error .unopenedGroup
  | g :: gs =>
    let choice := GlobToken.choice (s.tokens.reverse :: g.branches).reverse
    .ok { s with tokens := choice :: g.before, groups := gs }

def widen (s : State) (t : GlobToken) : State :=
  match s.tokens with
  | .anyBefore :: _ => s
  | .anyBelow :: _ => s
  | _ :: rest => { s with tokens := t :: rest }
  | [] => s

def twoStars (s : State) : State := (s.push .star).push .star

end State

def doubleStar (s : State) (before : Option Char) (cs : Text) : State × Text :=
  if s.tokens.isEmpty then
    match cs with
    | [] => (s.push .anyBefore, [])
    | '/' :: rest => ({ s.push .anyBefore with last := some '/' }, rest)
    | _ => (s.twoStars, cs)
  else if before != some '/' &&
      !(s.inGroup && (before == some ',' || before == some '\x7b')) then (s.twoStars, cs)
  else
    match cs with
    | [] => (s.widen .anyBelow, [])
    | '/' :: rest => ({ s.widen .anyBetween with last := some '/' }, rest)
    | c :: _ =>
      if s.inGroup && (c == ',' || c == '\x7d') then (s.widen .anyBelow, cs) else (s.twoStars, cs)

/-- Read one token. -/
def step (lenient : Bool) (s : State) (c : Char) (cs : Text) : Except GlobError (State × Text) :=
  let before := s.last
  let s := { s with last := some c }
  match c with
  | '?' => .ok (s.push .any, cs)
  | '*' =>
    match cs with
    | '*' :: rest => .ok (doubleStar s before rest)
    | _ => .ok (s.push .star, cs)
  | '[' =>
    if s.literal then .ok (s.push (.char '['), cs)
    else
      match class? cs with
      | .error e => .error e
      | .ok (some (t, rest)) => .ok ({ s.push t with last := some ']' }, rest)
      | .ok none =>
        if lenient then .ok ({ s.push (.char '[') with literal := true }, cs)
        else .error .unclosedClass
  | '\x7b' => .ok (s.openGroup, cs)
  | '\x7d' => s.closeGroup.map fun s => (s, cs)
  | ',' => .ok (s.comma, cs)
  | '\\' =>
    match cs with
    | [] => .error .danglingEscape
    | d :: rest => .ok ({ s.push (.char d) with last := some d }, rest)
  | c => .ok (s.push (.char c), cs)

def steps (lenient : Bool) : Nat → State → Text → Except GlobError State
  | 0, s, _ => .ok s
  | _ + 1, s, [] => .ok s
  | fuel + 1, s, c :: cs =>
    match step lenient s c cs with
    | .error e => .error e
    | .ok (s, rest) => steps lenient fuel s rest

/-- The pattern that a text spells. A lenient reading takes the bracket of a class that is never
closed for itself. -/
def parse (lenient : Bool) (cs : Text) : Except GlobError Glob :=
  match steps lenient (cs.length + 1) {} cs with
  | .error e => .error e
  | .ok s => if s.inGroup then .error .unclosedGroup else .ok s.tokens.reverse

end Glob
end Quell
