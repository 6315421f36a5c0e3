/-!
# Letter case and sigils

Names of classes, functions and methods are compared after lowering the ASCII
letters; all other characters are kept.  Variable names are kept without the
`$` that introduces them.
-/

namespace RedundantCast.Text

/-- The text with its ASCII letters in lower case. -/
def lower (cs : List Char) : List Char :=
  cs.map Char.toLower

@[simp] theorem lower_nil : lower [] = [] := rfl

@[simp] theorem lower_cons (c : Char) (cs : List Char) :
    lower (c :: cs) = c.toLower :: lower cs := rfl

@[simp] theorem lower_append (as bs : List Char) : lower (as ++ bs) = lower as ++ lower bs :=
  List.map_append

def lowered (s : String) : String :=
  String.ofList (lower s.toList)

def dropBackslashes (cs : List Char) : List Char :=
  cs.dropWhile (· == '\\')

/-- The name without one leading `$`. -/
def stripSigil (s : String) : String :=
  match s.toList with
  | '$' :: rest => String.ofList rest
  | _ => s

end RedundantCast.Text
