import Quell.Grammar.Modules

/-!
Programs. The table of rules is closed here: a rule may call the others down to a depth that no
source exceeds, so a reading ends without being cut short. What was read then gets the offsets of
the stretches it was read from.
-/
namespace Quell.Grammar

open Reader

/-- The rules for constructs that nest at most `depth` deep. -/
def rules : Nat → Rules
  | 0, _ => refuse
  | depth + 1, rule =>
    match rule with
    | .assignment => assignment (rules depth)
    | .expression => expression (rules depth)
    | .unary => unary (rules depth)
    | .leftSide => leftSide (rules depth)
    | .callee => callee (rules depth)
    | .binding => binding (rules depth)
    | .statement declares => statement (rules depth) declares
    | .item => item (rules depth)
    | .type => anyType (rules depth)
    | .markup inside => markup (rules depth) inside

mutual

/-- The term with offsets in the text. An empty hole is what stands between its braces. A place
behind all stretches is the end of the text. -/
def Term.placed (ss : Array Stretch) (stop : Nat) : Term → Term
  | .mk label lo hi ps =>
    let first := ss.getD lo ⟨stop, stop, false, false⟩
    let last := ss.getD hi ⟨stop, stop, false, false⟩
    if label = .shown .emptyHole then .mk label first.hi last.lo []
    else .mk label first.lo last.hi (placedAll ss stop ps)

def placedAll (ss : Array Stretch) (stop : Nat) : List Term → List Term
  | [] => []
  | t :: ts => t.placed ss stop :: placedAll ss stop ts

end

structure Dialect where
  /-- Types may be written. -/
  typed : Bool
  /-- Markup may be written. -/
  markup : Bool
  deriving DecidableEq, Repr, Inhabited

structure Program where
  terms : List Term
  remarks : List Remark
  /-- The parts that the text was taken in. -/
  stretches : List Stretch
  deriving Repr, Inhabited

/-- Items up to the end of the text. -/
def items (r : Rules) : Reader (List Term) := repeated do
  if (← token).isDone then return none else return some (← r .item)

def interpreterLine : Text → Nat × Text
  | '#' :: '!' :: cs =>
    let line := cs.takeWhile (!isLineEnd ·)
    (2 + Text.bytes line, cs.drop line.length)
  | cs => (0, cs)

/-- Read a source up to its end. -/
def Program.reading? (d : Dialect) (source : Text) : Option (List Term × Reading) :=
  let (pos, rest) := interpreterLine source
  (items (rules limit)).run { typed := d.typed, markup := d.markup } (.start pos rest)

/-- What was read at the end of the text. -/
def Program.of (terms : List Term) (s : Reading) : Program :=
  let stretches := s.stretches.reverse
  ⟨placedAll stretches.toArray s.token.lo terms, (s.token.remarks ++ s.remarks).reverse, stretches⟩

def Program.read? (d : Dialect) (source : Text) : Option Program :=
  match Program.reading? d source with
  | some (terms, s) => if allSettled terms then some (.of terms s) else none
  | none => none

end Quell.Grammar
