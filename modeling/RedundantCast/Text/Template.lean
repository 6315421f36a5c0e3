/-!
# Message templates

A template holds placeholders, a decimal index in braces.  `fill` replaces the
placeholder of each argument in turn, in the text that the earlier arguments
have left, so a placeholder that an argument brings along is filled as well.
-/

namespace RedundantCast.Text

/-- Replace every occurrence of `pattern`, found from left to right without
overlap, by `replacement`; the first `skip` characters belong to an occurrence
that has been replaced already. -/
def replaceFrom (pattern replacement : List Char) : Nat → List Char → List Char
  | _, [] => []
  | skip + 1, _ :: cs => replaceFrom pattern replacement skip cs
  | 0, c :: cs =>
    if pattern.isPrefixOf (c :: cs) then
      replacement ++ replaceFrom pattern replacement (pattern.length - 1) cs
    else
      c :: replaceFrom pattern replacement 0 cs

def replaceAll (pattern replacement text : List Char) : List Char :=
  replaceFrom pattern replacement 0 text

@[simp] theorem replaceAll_nil (pattern replacement : List Char) :
    replaceAll pattern replacement [] = [] := rfl

/-- The placeholder of argument `index`: its decimal digits in braces. -/
def placeholder (index : Nat) : List Char :=
  '\x7b' :: Nat.toDigits 10 index ++ ['\x7d']

/-- Fill the placeholders of `args`, the first of which has the given index. -/
def fillFrom : Nat → List Char → List (List Char) → List Char
  | _, text, [] => text
  | index, text, arg :: args =>
    fillFrom (index + 1) (replaceAll (placeholder index) arg text) args

@[simp] theorem fillFrom_nil (index : Nat) (text : List Char) : fillFrom index text [] = text := rfl

@[simp] theorem fillFrom_cons (index : Nat) (text arg : List Char) (args : List (List Char)) :
    fillFrom index text (arg :: args) =
      fillFrom (index + 1) (replaceAll (placeholder index) arg text) args := rfl

/-- The template with its placeholders replaced by the arguments. -/
def fill (template : String) (args : List String) : String :=
  String.ofList (fillFrom 0 template.toList (args.map String.toList))

end RedundantCast.Text
