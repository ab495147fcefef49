import Quell.Text.Basic

/-!
Paths: names between slashes. Doubled slashes and names that are a single point do not count, but
nothing is reordered or cut: a path is shown as it was put together.
-/
namespace Quell
namespace Path

/-- The names of a path that count, in order. -/
def names (p : Text) : List Text :=
  (Text.splitOn '/' p).filter fun name => !name.isEmpty && name != ['.']

def isAbsolute (p : Text) : Bool := Text.startsWith ['/'] p

def fileName? (p : Text) : Option Text :=
  match (names p).getLast? with
  | some name => if name = ['.', '.'] then none else some name
  | none => none

def extension? (p : Text) : Option Text :=
  match (fileName? p).bind (Text.splitLast? '.') with
  | some (stem, ext) => if stem.isEmpty then none else some ext
  | none => none

/-- A path below a folder; an absolute one stands on its own. -/
def join (folder p : Text) : Text :=
  if isAbsolute p then p
  else if folder.isEmpty || folder.getLast? = some '/' then folder ++ p
  else folder ++ '/' :: p

def trimBackwards : Text → Text
  | ['/'] => ['/']
  | '/' :: rest => trimBackwards rest
  | '.' :: '/' :: rest => trimBackwards ('/' :: rest)
  | cs => cs

def parent? (p : Text) : Option Text :=
  match trimBackwards p.reverse with
  | [] => none
  | ['/'] => none
  | cs => some (trimBackwards (cs.dropWhile (· != '/'))).reverse

def trimFront : Text → Text
  | '/' :: cs => trimFront cs
  | '.' :: '/' :: cs => trimFront ('/' :: cs)
  | ['.'] => []
  | cs => cs

def afterNames? : List Text → Text → Option Text
  | [], p => some (trimFront p)
  | name :: rest, p =>
    match Text.after? name (trimFront p) with
    | some [] => afterNames? rest []
    | some ('/' :: cs) => afterNames? rest cs
    | _ => none

def below? (folder p : Text) : Option Text :=
  if isAbsolute p then
    (afterNames? (names folder) p).map fun rest => (trimBackwards rest.reverse).reverse
  else none

def shown (folder p : Text) : Text := (below? folder p).getD p

def sourceExtensions : List Text :=
  ["js", "jsx", "mjs", "cjs", "ts", "tsx", "mts", "cts"].map String.toList

def isSource (p : Text) : Bool := (extension? p).any sourceExtensions.contains

end Path
end Quell
