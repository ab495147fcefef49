import Quell.Document.Basic

/-!
Terms: what was read from a source, as a labelled tree of byte ranges.

A label says what later decisions depend on, no more. Some text can only be told apart by what
follows it: the head of an arrow function and the left side of an assignment are first read as
expressions. Here stands how such an expression is taken for a pattern, and when it is refused.
-/
namespace Quell.Grammar

inductive Shape where
  | name (id : String)
  | quoted
  | literal
  | member
  | superMember
  /-- A link of an optional chain; it is a call or names a member. -/
  | chain (call : Bool)
  | call
  | created
  /-- `comma`: a comma follows a spread at the end. -/
  | array (comma : Bool)
  | object (comma : Bool)
  | assigned (plain : Bool)
  | paren
  | arrow (block : Bool)
  | unary
  | awaited
  | update
  | binary
  | orAnd
  | nullish
  | conditional
  | typed
  | constant
  | instantiated
  | other
  deriving DecidableEq, Repr, Inhabited

inductive Mold where
  | name
  | list
  | record
  | rest
  | defaulted
  deriving DecidableEq, Repr, Inhabited

inductive Entry where
  | shorthand (id : String)
  | keyed
  /-- A shorthand with a default, which only a pattern may hold. -/
  | defaulted (id : String)
  | method
  deriving DecidableEq, Repr, Inhabited

inductive Label where
  /-- Only the parts count. -/
  | group
  /-- Only the parts of the single part count. -/
  | hidden
  | shown (kind : NodeKind)
  | expr (shape : Shape)
  | pattern (mold : Mold)
  | entry (shape : Entry)
  | spread
  | elision
  deriving DecidableEq, Repr, Inhabited

inductive Term where
  | mk (label : Label) (lo hi : Nat) (parts : List Term)
  deriving Repr

instance : Inhabited Term := ⟨.mk .group 0 0 []⟩

namespace Term

def label : Term → Label
  | mk l _ _ _ => l

def lo : Term → Nat
  | mk _ lo _ _ => lo

def hi : Term → Nat
  | mk _ _ hi _ => hi

def parts : Term → List Term
  | mk _ _ _ ps => ps

def setHi (hi : Nat) : Term → Term
  | mk l lo _ ps => mk l lo hi ps

def addParts (more : List Term) : Term → Term
  | mk l lo hi ps => mk l lo hi (ps ++ more)

def group (ps : List Term) : Term := mk .group 0 0 ps

def none : Term := group []

def isExpr (t : Term) (s : Shape) : Bool := t.label == .expr s

def isArrow (t : Term) : Bool := t.isExpr (.arrow true) || t.isExpr (.arrow false)

def isChain (t : Term) : Bool := t.isExpr (.chain true) || t.isExpr (.chain false)

def name? (t : Term) : Option String :=
  match t.label with
  | .expr (.name id) => some id
  | _ => Option.none

def hide (t : Term) : Term := mk .hidden t.lo t.hi [t]

end Term

def isRestricted (id : String) : Bool := id == "eval" || id == "arguments"

namespace Term

def isSimple : Term → Bool
  | mk (.expr (.name id)) _ _ _ => !isRestricted id
  | mk (.expr .superMember) _ _ _ => true
  | mk (.expr .member) _ _ (obj :: _) =>
    if obj.isExpr .member then obj.isSimple else !obj.isChain
  | mk (.expr .paren) _ _ (t :: _) => t.isSimple
  | mk (.expr .typed) _ _ (t :: _) => t.isSimple
  | mk (.expr .instantiated) _ _ (t :: _) => t.isSimple
  | _ => false

/-- An expression that is refused as a target although it is not simple only because it can never
be one. Literals and operators get by in parentheses and under an increment, and so do calls under
an increment. -/
def isDenied (denyCall : Bool) : Term → Bool
  | mk (.expr .quoted) _ _ _ => false
  | mk (.expr .literal) _ _ _ => false
  | mk (.expr .binary) _ _ _ => false
  | mk (.expr .orAnd) _ _ _ => false
  | mk (.expr .nullish) _ _ _ => false
  | mk (.expr .call) _ _ _ => denyCall
  | mk (.expr .paren) _ _ (t :: _) => t.isDenied denyCall
  | _ => true

def isBadOperand (t : Term) : Bool := !t.isSimple && t.isDenied false

def hasTargetShape (t : Term) : Bool :=
  match t.label with
  | .expr (.name _) | .expr .member | .expr .superMember | .expr .paren | .expr .typed
  | .expr .instantiated => true
  | _ => false

def isBinding (t : Term) : Bool :=
  match t.label with
  | .pattern _ => true
  | _ => false

def restOf (t : Term) : Term := mk (.pattern .rest) t.lo t.hi [t]

mutual

def toPattern? (binding : Bool) : Term → Option Term
  | mk (.expr (.name id)) lo hi _ =>
    if isRestricted id then Option.none else some (mk (.pattern .name) lo hi [])
  | mk (.expr (.array comma)) lo hi ps =>
    if comma then Option.none else (toElements? binding ps).map (mk (.pattern .list) lo hi)
  | mk (.expr (.object comma)) lo hi ps =>
    if comma then Option.none else (toEntries? binding ps).map (mk (.pattern .record) lo hi)
  | mk (.expr (.assigned true)) lo hi (mk .hidden _ _ (left :: _) :: value) =>
    if binding && !left.isBinding then Option.none
    else some (mk (.pattern .defaulted) lo hi (left :: value))
  | mk (.pattern m) lo hi ps => some (mk (.pattern m) lo hi ps)
  | t => if !binding && t.hasTargetShape && t.isSimple then some t else Option.none

def toElements? (binding : Bool) : List Term → Option (List Term)
  | [] => some []
  | mk .elision lo hi ps :: rest => (toElements? binding rest).map (mk .elision lo hi ps :: ·)
  | mk .spread _ _ [arg] :: rest =>
    if rest.isEmpty && !arg.isExpr (.assigned true) then
      (toPattern? binding arg).map fun p => [restOf p]
    else Option.none
  | t :: rest =>
    match toPattern? binding t, toElements? binding rest with
    | some p, some ps => some (p :: ps)
    | _, _ => Option.none

def toEntries? (binding : Bool) : List Term → Option (List Term)
  | [] => some []
  | mk (.entry (.shorthand id)) _ _ _ :: rest =>
    if isRestricted id then Option.none else toEntries? binding rest
  | mk (.entry (.defaulted id)) _ _ ps :: rest =>
    if isRestricted id then Option.none else (toEntries? binding rest).map (ps ++ ·)
  | mk (.entry .keyed) _ _ [key, value] :: rest =>
    match toPattern? binding value, toEntries? binding rest with
    | some p, some ps => some (key :: p :: ps)
    | _, _ => Option.none
  | mk .spread _ _ [arg] :: rest =>
    if rest.isEmpty && !arg.isExpr (.assigned true) && (!binding || arg.name?.isSome) then
      (toPattern? binding arg).map ([·])
    else Option.none
  | _ :: _ => Option.none

end

def toHead? (t : Term) : Option Term :=
  match t.label with
  | .expr (.array _) | .expr (.object _) | .expr (.name _) => t.toPattern? false
  | _ => if t.isSimple || !t.isDenied true then some t else Option.none

def toTarget? (t : Term) : Option Term :=
  match t.label with
  | .expr (.array _) | .expr (.object _) => t.toHead?.map hide
  | _ => if t.hasTargetShape then t.toHead?.map hide else Option.none

end Term

/-! Leftovers of the double reading. -/

mutual

def Term.isSettled : Term → Bool
  | .mk (.entry (.defaulted _)) _ _ _ => false
  | .mk _ _ _ ps => allSettled ps

def allSettled : List Term → Bool
  | [] => true
  | t :: ts => t.isSettled && allSettled ts

end

end Quell.Grammar
