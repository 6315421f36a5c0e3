import RedundantCast.Text.Blank
import RedundantCast.Text.LetterCase

/-!
# Class names

A class name keeps its spelling for display.  Names are the same, and are
ordered, by their key: the spelling in lower case without leading backslashes.
-/

namespace RedundantCast

/-- What is compared of a spelling: lower case, no leading backslash. -/
def ClassName.keyOf (text : String) : String :=
  String.ofList (Text.lower (Text.dropBackslashes text.toList))

/-- The name of a class as spelled somewhere in a program, with its key. -/
structure ClassName where
  text : String
  key : String
  key_eq : key = ClassName.keyOf text
  deriving Repr

namespace ClassName

/-- The name with exactly this spelling. -/
def spelled (text : String) : ClassName :=
  ⟨text, keyOf text, rfl⟩

instance : Inhabited ClassName := ⟨spelled ""⟩

/-- The name in a text, without the blanks around it. -/
def ofText (text : String) : ClassName :=
  spelled (Text.trimmed text)

@[simp] theorem text_spelled (text : String) : (spelled text).text = text := rfl

@[simp] theorem key_spelled (text : String) : (spelled text).key = keyOf text := rfl

instance : BEq ClassName where
  beq a b := a.key == b.key

instance : Ord ClassName where
  compare a b := compare a.key b.key

theorem beq_iff {a b : ClassName} : (a == b) = true ↔ a.key = b.key :=
  beq_iff_eq (α := String)

instance : EquivBEq ClassName where
  rfl := beq_iff.2 rfl
  symm h := beq_iff.2 (beq_iff.1 h).symm
  trans h h' := beq_iff.2 ((beq_iff.1 h).trans (beq_iff.1 h'))

theorem compare_def (a b : ClassName) : compare a b = compare a.key b.key := rfl

end ClassName

end RedundantCast
