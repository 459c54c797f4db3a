import Octet.Text.Split

/-!
Paths: names between slashes. Slashes that follow each other count as one, a
slash in front makes the path absolute, and a single dot stands for the place
itself.
-/

namespace Octet.Path

/-- The names of a path, those with dots included. -/
def names (path : String) : List String :=
  ((Text.split '/' path.toList).filter (· ≠ [])).map String.ofList

def isAbsolute (path : String) : Bool := path.toList.head? = some '/'

/-- The path ends in a slash, so that it can only lead to a folder. -/
def endsInSlash (path : String) : Bool := path.toList.getLast? = some '/'

/-- A name up to its last dot. A dot in front belongs to the name. -/
def stem (name : List Char) : List Char :=
  match (name.reverse.dropWhile (· ≠ '.')) with
  | _ :: c :: cs => (c :: cs).reverse
  | _ => name

/-- The stem of the name that a path ends in. A path that ends in two dots has
none, nor has one without names. -/
def stem? (path : String) : Option String :=
  match ((names path).filter (· ≠ ".")).getLast? with
  | some ".." => none
  | some name => some (String.ofList (stem name.toList))
  | none => none

end Octet.Path
