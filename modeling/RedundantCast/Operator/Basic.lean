import RedundantCast.Text.LetterCase

/-!
# Operators

The binary and unary operators and the tokens they are written with.  Word
tokens of binary operators may be in any letter case.
-/

namespace RedundantCast

inductive BinaryOperator where
  | add
  | sub
  | mul
  | div
  | mod
  | pow
  | concat
  | equal
  | identical
  | notEqual
  | notIdentical
  | less
  | greater
  | lessEqual
  | greaterEqual
  | spaceship
  | instanceOf
  | logicalAnd
  | logicalOr
  | logicalXor
  | bitAnd
  | bitOr
  | bitXor
  | shiftLeft
  | shiftRight
  | coalesce
  deriving DecidableEq, Repr, Inhabited

namespace BinaryOperator

/-- The tokens in lower case; some operators have two. -/
def tokens : List (String × BinaryOperator) :=
  [("+", add), ("-", sub), ("*", mul), ("/", div), ("%", mod), ("**", pow), (".", concat),
    ("==", equal), ("===", identical), ("!=", notEqual), ("<>", notEqual),
    ("!==", notIdentical), ("<", less), (">", greater), ("<=", lessEqual),
    (">=", greaterEqual), ("<=>", spaceship), ("instanceof", instanceOf),
    ("&&", logicalAnd), ("and", logicalAnd), ("||", logicalOr), ("or", logicalOr),
    ("xor", logicalXor), ("&", bitAnd), ("|", bitOr), ("^", bitXor), ("<<", shiftLeft),
    (">>", shiftRight), ("??", coalesce)]

def ofToken? (token : String) : Option BinaryOperator :=
  tokens.lookup (Text.lowered token)

/-- Whether the result is a boolean whatever the operands. -/
def isBoolean : BinaryOperator → Bool
  | equal | identical | notEqual | notIdentical | less | greater | lessEqual | greaterEqual
  | instanceOf | logicalAnd | logicalOr | logicalXor => true
  | _ => false

def isBitwise : BinaryOperator → Bool
  | bitAnd | bitOr | bitXor | shiftLeft | shiftRight => true
  | _ => false

end BinaryOperator

inductive UnaryOperator where
  | not
  | minus
  | plus
  | bitNot
  deriving DecidableEq, Repr, Inhabited

namespace UnaryOperator

def tokens : List (String × UnaryOperator) :=
  [("!", not), ("-", minus), ("+", plus), ("~", bitNot)]

def ofToken? (token : String) : Option UnaryOperator :=
  tokens.lookup token

end UnaryOperator

end RedundantCast
