import RedundantCast.Text.Split

/-!
# Paths

A path is absolute or relative.  It is shown as it is written and compared by its
components.
-/

namespace RedundantCast

/-- A path as it is written. -/
structure Path where
  text : String
  deriving DecidableEq, Repr, Inhabited

namespace Path

/-- What stands between the slashes.  An absolute path has an empty part first. -/
def parts (p : Path) : List String :=
  (Text.splitOn '/' p.text.toList).map String.ofList

def isAbsolute (p : Path) : Bool :=
  p.text.toList.head? == some '/'

/-- Whether a part leads nowhere: nothing between two slashes, or a single
dot. -/
def isIdle (part : String) : Bool :=
  part == "" || part == "."

/-- What a path is compared by: the root and the parts that are not idle, and a
dot only at the beginning. -/
def components (p : Path) : List String :=
  match p.parts with
  | [] => []
  | first :: body =>
    let start := if p.isAbsolute then ["/"] else if first = "" then [] else [first]
    start ++ body.filter (!isIdle ·)

/-- The path that a text names in a directory.  An absolute text is a path of its
own, and a slash at the end of the directory counts once. -/
def join (directory : Path) (text : String) : Path :=
  if (Path.mk text).isAbsolute then ⟨text⟩
  else
    match directory.text.toList.getLast? with
    | none | some '/' => ⟨directory.text ++ text⟩
    | some _ => ⟨directory.text ++ "/" ++ text⟩

/-- The parts without the idle ones at the end. -/
def dropIdle (parts : List String) : List String :=
  (parts.reverse.dropWhile isIdle).reverse

/-- The directory of a path, as written.  The root has none, and no more has the
empty path. -/
def parent? (p : Path) : Option Path :=
  match p.parts with
  | [] => none
  | first :: body =>
    match dropIdle body with
    | [] => if first = "" then none else some ⟨""⟩
    | names =>
      match dropIdle names.dropLast with
      | [] => some ⟨if first = "" then "/" else first⟩
      | body => some ⟨"/".intercalate (first :: body)⟩

end Path

end RedundantCast
