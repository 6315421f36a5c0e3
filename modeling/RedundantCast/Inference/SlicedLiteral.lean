import RedundantCast.Inference.IntegerLiteral
import RedundantCast.Text.LetterCase
import RedundantCast.Text.Slice

/-!
# Slicing integer literals

The radix and the digits of an integer literal by slices at fixed byte offsets. The
text of a literal may be anything, so each of these slices could fail.
-/

namespace RedundantCast.IntegerLiteral

/-- The first two bytes in lower case, if they can be cut off. -/
def firstBytes? (cs : List Char) : Option (List Char) :=
  (Text.splitAtByte? 2 cs).map fun parts => Text.lower parts.1

/-- The digits behind so many bytes, with their radix. -/
def digitsBehind? (offset radix : Nat) (cs : List Char) : Option (Nat × List Char) :=
  (Text.splitAtByte? offset cs).map fun parts => (radix, parts.2)

/-- The radix and the digits of a literal without underscores. -/
def slicedRadixAndDigits? (cs : List Char) : Option (Nat × List Char) :=
  match firstBytes? cs with
  | some ['0', 'x'] => digitsBehind? 2 16 cs
  | some ['0', 'b'] => digitsBehind? 2 2 cs
  | some ['0', 'o'] => digitsBehind? 2 8 cs
  | _ => if 1 < Text.byteLength cs ∧ cs.head? = some '0' then digitsBehind? 1 8 cs else some (10, cs)

end RedundantCast.IntegerLiteral
