import RedundantCast.Text.Blank
import RedundantCast.Text.LetterCase
import RedundantCast.Ty.Basic

/-!
# Cast kinds

What a `(keyword)` cast converts to.  Keywords may be in any letter case, with
blanks and parentheses around them; several keywords name one kind.
-/

namespace RedundantCast

inductive CastKind where
  | int
  | bool
  | float
  | string
  | array
  | object
  | unset
  /-- A keyword the language does not know. -/
  | unrecognized
  deriving DecidableEq, Repr, Inhabited

namespace CastKind

/-- The word inside a cast token: without blanks, then opening parentheses in
front and closing ones behind, then blanks again. -/
def keyword (cs : List Char) : List Char :=
  Text.trim (((Text.trim cs).dropWhile (· == '(')).reverse.dropWhile (· == ')')).reverse

def keywords : List (String × CastKind) :=
  [("int", int), ("integer", int), ("bool", bool), ("boolean", bool), ("float", float),
    ("double", float), ("real", float), ("string", string), ("binary", string),
    ("array", array), ("object", object), ("unset", unset)]

/-- The kind of cast that a token or keyword stands for. -/
def ofKeyword (text : String) : CastKind :=
  (keywords.lookup (String.ofList (Text.lower (keyword text.toList)))).getD unrecognized

/-- The type of the value a cast produces; `none` for the casts that are never
reported. -/
def target? : CastKind → Option Ty
  | int => some .int
  | bool => some .bool
  | float => some .float
  | string => some .string
  | array => some .array
  | object | unset | unrecognized => none

end CastKind

end RedundantCast
