import RedundantCast.Text.Blank

/-!
# Comments and dangling commas

Settings are JSON with `//` and `/* */` comments, and a comma may stand before
a closing bracket.  `strip` removes both; string contents stay as they
are, and the line breaks of comments are kept.
-/

namespace RedundantCast

namespace Json

namespace Comments

/-- What the text at some place belongs to. -/
inductive Mode where
  | code
  /-- A string; the next character may be escaped. -/
  | string (escaped : Bool)
  | lineComment
  /-- A block comment; the last character may be a star, which the one that
  opens it does not count as. -/
  | blockComment (star : Bool)
  deriving DecidableEq, Repr, Inhabited

/-- The mode after a character of a string. -/
def afterStringChar (escaped : Bool) (c : Char) : Mode :=
  if escaped then .string false
  else if c = '\\' then .string true
  else if c = '"' then .code
  else .string false

/-- The text written so far, last character first, without a comma at its end
and the blanks after that comma. -/
def dropComma (written : List Char) : List Char :=
  match written.dropWhile Text.isBlank with
  | ',' :: rest => rest
  | _ => written

@[simp] theorem dropComma_nil : dropComma [] = [] := rfl

/-- What is written when a character of the code is read. -/
def writeCode (c : Char) (written : List Char) : List Char :=
  if c = ']' || c = '\x7d' then c :: dropComma written else c :: written

/-- Strip a text that is entered in the given mode, after the text written so
far, last character first. -/
def stripFrom : Mode → List Char → List Char → List Char
  | _, written, [] => written.reverse
  | .string escaped, written, c :: cs => stripFrom (afterStringChar escaped c) (c :: written) cs
  | .lineComment, written, c :: cs =>
    if c = '\n' then stripFrom .code (c :: written) cs else stripFrom .lineComment written cs
  | .blockComment star, written, c :: cs =>
    if star && c = '/' then stripFrom .code written cs
    else stripFrom (.blockComment (c == '*')) (if c = '\n' then c :: written else written) cs
  | .code, written, '/' :: '/' :: cs => stripFrom .lineComment written cs
  | .code, written, '/' :: '*' :: cs => stripFrom (.blockComment false) written cs
  | .code, written, c :: cs =>
    if c = '"' then stripFrom (.string false) (c :: written) cs
    else stripFrom .code (writeCode c written) cs

def strip (cs : List Char) : List Char :=
  stripFrom .code [] cs

@[simp] theorem strip_nil : strip [] = [] := rfl

end Comments

end Json

end RedundantCast
