import RedundantCast.Text.Blank
import RedundantCast.Text.LetterCase

/-!
# Log formats

The layout of log lines, chosen by name.
-/

namespace RedundantCast

inductive LogFormat where
  | text
  | tree
  | json
  deriving DecidableEq, Repr, Inhabited

/-- The format with the given name, in any letter case and with blanks around
it; plain text for any other name. -/
def LogFormat.parse (name : String) : LogFormat :=
  match Text.lowered (Text.trimmed name) with
  | "tree" => .tree
  | "json" => .json
  | _ => .text

end RedundantCast
