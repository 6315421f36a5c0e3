import RedundantCast.Text.Digits
import RedundantCast.Ty.Basic

/-!
# Integer literals

An integer literal is an `int` if its value fits in 64 bits with a sign, and a
`float` if it is larger.  Underscores may stand anywhere between the digits.
-/

namespace RedundantCast

namespace IntegerLiteral

/-- The radix and the digits of a literal without underscores: hexadecimal,
binary and octal after `0x`, `0b` and `0o`, octal after any other leading zero
that is not alone, decimal otherwise. -/
def radixAndDigits : List Char → Nat × List Char
  | '0' :: c :: cs =>
    match c.toLower with
    | 'x' => (16, cs)
    | 'b' => (2, cs)
    | 'o' => (8, cs)
    | _ => (8, c :: cs)
  | cs => (10, cs)

def maxInt : Nat := 0x7FFFFFFFFFFFFFFF

/-- The type of a literal with the given text, which has none if the text is
malformed. -/
def type? (text : String) : Option Ty :=
  let (radix, digits) := radixAndDigits (text.toList.filter (· != '_'))
  (Text.number? radix digits).map fun value => if value ≤ maxInt then .int else .float

end IntegerLiteral

end RedundantCast
