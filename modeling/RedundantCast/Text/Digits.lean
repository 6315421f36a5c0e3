/-!
# Digits

The number that a text of digits denotes.  The radix is at most sixteen, and
the digits from ten on are letters of either case.
-/

namespace RedundantCast.Text

/-- The value of a digit, up to the hexadecimal ones. -/
def digit? (c : Char) : Option Nat :=
  if c.isDigit then some (c.toNat - '0'.toNat)
  else if 'a' ≤ c ∧ c ≤ 'f' then some (c.toNat - 'a'.toNat + 10)
  else if 'A' ≤ c ∧ c ≤ 'F' then some (c.toNat - 'A'.toNat + 10)
  else none

/-- The value of a digit below the radix. -/
def digitBelow? (radix : Nat) (c : Char) : Option Nat :=
  (digit? c).filter (· < radix)

/-- The number that some digits denote after the digits of `number`. -/
def numberFrom? (radix : Nat) : Nat → List Char → Option Nat
  | number, [] => some number
  | number, c :: cs =>
    match digitBelow? radix c with
    | some d => numberFrom? radix (number * radix + d) cs
    | none => none

/-- The number that a nonempty list of digits denotes. -/
def number? (radix : Nat) : List Char → Option Nat
  | [] => none
  | cs => numberFrom? radix 0 cs

@[simp] theorem number?_nil (radix : Nat) : number? radix [] = none := rfl

end RedundantCast.Text
