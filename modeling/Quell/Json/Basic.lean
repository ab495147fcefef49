import Quell.Text.Basic

/-!
JSON values as a text spells them, and how records are taken from them.

A number keeps its spelling, because only plain digits count as a whole number. A string that holds
half of a surrogate pair is no text; it does no harm where nobody asks for it.
-/
namespace Quell

inductive Json where
  | null
  | bool (value : Bool)
  | number (spelling : Text)
  | string (value : Option Text)
  | array (items : List Json)
  | object (fields : List (Option Text × Json))
  deriving Repr, Inhabited

namespace Json

def ofText (t : Text) : Json := string (some t)

def ofNat (n : Nat) : Json := number (Text.ofNat n)

def ofOption {α : Type} (f : α → Json) : Option α → Json
  | some a => f a
  | none => null

def ofTexts (ts : List Text) : Json := array (ts.map ofText)

def text? : Json → Option Text
  | string value => value
  | _ => none

def bool? : Json → Option Bool
  | bool b => some b
  | _ => none

def array? : Json → Option (List Json)
  | array items => some items
  | _ => none

def decimal (digits : Text) : Nat := digits.foldl (fun n c => 10 * n + (c.toNat - 48)) 0

def nat? (limit : Nat) : Json → Option Nat
  | number digits =>
    if digits.all Char.isDigit && decimal digits < limit then some (decimal digits) else none
  | _ => none

def wide? : Json → Option Nat := nat? 0x10000000000000000

def byte? : Json → Option Nat := nat? 0x100

def option? {α : Type} (read : Json → Option α) : Json → Option (Option α)
  | null => some none
  | j => (read j).map some

def list? {α : Type} (read : Json → Option α) (j : Json) : Option (List α) :=
  j.array?.bind (·.mapM read)

/-! Records. -/

/-- A field of a record; one that is preset may be missing even where fields have no names. -/
structure Slot where
  name : String
  preset : Bool := false

/-- The field of that name. -/
def field? (fields : List (Option Text × Json)) (name : Text) : Option Json :=
  (fields.find? fun (key, _) => key = some name).map (·.2)

def hasPlainKeys (slots : List Slot) (fields : List (Option Text × Json)) : Bool :=
  fields.all (·.1.isSome) &&
    slots.all fun s => (fields.filter fun (key, _) => key = some s.name.toList).length ≤ 1

/-- Values of the fields of a record in the order of the slots. A record is an object, whose other
fields do not count, or a list of the values in order. -/
def record? (slots : List Slot) : Json → Option (List (Option Json))
  | object fields =>
    if hasPlainKeys slots fields then some (slots.map fun s => field? fields s.name.toList)
    else none
  | array items =>
    if items.length ≤ slots.length && (slots.drop items.length).all (·.preset) then
      some (items.map some ++ (slots.drop items.length).map fun _ => none)
    else none
  | _ => none

def required {α : Type} (read : Json → Option α) (j : Option Json) : Option α := j.bind read

def defaulted {α : Type} (preset : α) (read : Json → Option α) : Option Json → Option α
  | none => some preset
  | some j => read j

def optional {α : Type} (read : Json → Option α) : Option Json → Option (Option α) :=
  defaulted none (option? read)

end Json
end Quell
