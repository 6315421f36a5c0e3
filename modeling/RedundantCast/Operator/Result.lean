import RedundantCast.Operator.Basic
import RedundantCast.Ty.Union

/-!
# Result types of operators

The type of a result from what is known of the operands: `none` for an operand
of unknown type, and for a result that depends on more than the operand types.
-/

namespace RedundantCast

/-- A float on either side makes a float, two ints make an int. -/
def numericPromotion : Option Ty → Option Ty → Option Ty
  | some .float, _ => some .float
  | _, some .float => some .float
  | some .int, some .int => some .int
  | _, _ => none

def isKnownNumeric (t : Option Ty) : Bool :=
  t.any Ty.isNumeric

namespace BinaryOperator

def result (op : BinaryOperator) (left right : Option Ty) : Option Ty :=
  match op with
  | concat => some .string
  | spaceship => some .int
  | equal | identical | notEqual | notIdentical | less | greater | lessEqual | greaterEqual
  | instanceOf | logicalAnd | logicalOr | logicalXor => some .bool
  | add =>
    match left, right with
    | some .array, some .array => some .array
    | _, _ => numericPromotion left right
  | sub | mul => numericPromotion left right
  -- The quotient of two ints is an int only if the division leaves no rest.
  | div | pow =>
    match numericPromotion left right with
    | some .int => some (.union2 .int .float)
    | promoted => promoted
  | mod => if isKnownNumeric left && isKnownNumeric right then some .int else none
  | bitAnd | bitOr | bitXor | shiftLeft | shiftRight =>
    match left, right with
    | some .int, some .int => some .int
    | _, _ => none
  | coalesce => none

end BinaryOperator

namespace UnaryOperator

def result : UnaryOperator → Option Ty → Option Ty
  | not, _ => some .bool
  | minus, some t => if t.isNumeric then some t else none
  | plus, some t => if t.isNumeric then some t else none
  | bitNot, some .int => some .int
  | _, _ => none

end UnaryOperator

end RedundantCast
