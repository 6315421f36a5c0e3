import RedundantCast.Json.Token

/-!
# String contents

The characters that the inside of a JSON string stands for.  Characters outside
the basic plane are written as two escaped surrogates, which must come in order
and together.
-/

namespace RedundantCast

namespace Json

def isHighSurrogate (n : Nat) : Bool :=
  0xD800 ≤ n && n < 0xDC00

def isLowSurrogate (n : Nat) : Bool :=
  0xDC00 ≤ n && n < 0xE000

def joinSurrogates (high low : Nat) : Char :=
  Char.ofNat (0x10000 + (high - 0xD800) * 0x400 + (low - 0xDC00))

/-- The characters that the inside of a string stands for. -/
def contents? : List Char → Option (List Char)
  | [] => some []
  | '\\' :: 'u' :: a :: b :: c :: d :: cs =>
    match Text.number? 16 [a, b, c, d] with
    | none => none
    | some n =>
      if isHighSurrogate n then
        match cs with
        | '\\' :: 'u' :: e :: f :: g :: h :: rest =>
          match Text.number? 16 [e, f, g, h] with
          | none => none
          | some m =>
            if isLowSurrogate m then (contents? rest).map (joinSurrogates n m :: ·) else none
        | _ => none
      else if isLowSurrogate n then none
      else (contents? cs).map (Char.ofNat n :: ·)
  | '\\' :: e :: cs =>
    match shortEscape? e with
    | none => none
    | some c => (contents? cs).map (c :: ·)
  | c :: cs => (contents? cs).map (c :: ·)

@[simp] theorem contents?_nil : contents? [] = some [] := by
  simp [contents?]

/-- The string that the inside of a string literal stands for. -/
def text? (raw : List Char) : Option String :=
  (contents? raw).map String.ofList

end Json

end RedundantCast
