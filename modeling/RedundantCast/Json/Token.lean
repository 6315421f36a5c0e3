import RedundantCast.Text.Digits

/-!
# JSON tokens

The tokens of a text by the strict grammar of JSON.  The text ends at its first
error, which is a token of its own.  A string keeps its escapes until its
content is asked for.
-/

namespace RedundantCast

namespace Json

inductive Token where
  | openBrace
  | closeBrace
  | openBracket
  | closeBracket
  | colon
  | comma
  | null
  | bool (value : Bool)
  | number (digits : List Char)
  /-- The characters between the quotes. -/
  | string (raw : List Char)
  /-- Text that is no token. -/
  | bad
  deriving DecidableEq, Repr, Inhabited

def isSpace (c : Char) : Bool :=
  c == ' ' || c == '\t' || c == '\n' || c == '\r'

/-- The character that a backslash and a letter stand for. -/
def shortEscape? : Char → Option Char
  | '"' => some '"'
  | '\\' => some '\\'
  | '/' => some '/'
  | 'b' => some '\x08'
  | 'f' => some '\x0c'
  | 'n' => some '\n'
  | 'r' => some '\r'
  | 't' => some '\t'
  | _ => none

/-- Split a text after its opening quote into the characters of the string and
what follows the closing quote.  Control characters must be escaped. -/
def scanString : List Char → Option (List Char × List Char)
  | [] => none
  | '"' :: cs => some ([], cs)
  | '\\' :: 'u' :: a :: b :: c :: d :: cs =>
    if [a, b, c, d].all fun h => (Text.digit? h).isSome then
      (scanString cs).map fun (raw, rest) => ('\\' :: 'u' :: a :: b :: c :: d :: raw, rest)
    else none
  | '\\' :: e :: cs =>
    if (shortEscape? e).isSome then
      (scanString cs).map fun (raw, rest) => ('\\' :: e :: raw, rest)
    else none
  | c :: cs =>
    if c = '\\' || c.toNat < 0x20 then none
    else (scanString cs).map fun (raw, rest) => (c :: raw, rest)

theorem length_scanString {cs raw rest : List Char} (h : scanString cs = some (raw, rest)) :
    rest.length < cs.length := by
  fun_induction scanString cs generalizing raw rest with
  | case1 => simp at h
  | case2 cs => simp_all
  | case3 a b c d cs _ ih =>
    obtain ⟨⟨raw', rest'⟩, hs, heq⟩ := Option.map_eq_some_iff.1 h
    cases heq
    have := ih hs
    simp only [List.length_cons]
    omega
  | case4 => simp at h
  | case5 e cs _ _ ih =>
    obtain ⟨⟨raw', rest'⟩, hs, heq⟩ := Option.map_eq_some_iff.1 h
    cases heq
    have := ih hs
    simp only [List.length_cons]
    omega
  | case6 => simp at h
  | case7 => simp at h
  | case8 c cs _ _ _ _ ih =>
    obtain ⟨⟨raw', rest'⟩, hs, heq⟩ := Option.map_eq_some_iff.1 h
    cases heq
    have := ih hs
    simp only [List.length_cons]
    omega

/-- Split a text into the digits it begins with, at least one, and the rest. -/
def scanDigits (cs : List Char) : Option (List Char × List Char) :=
  if cs.takeWhile Char.isDigit = [] then none
  else some (cs.takeWhile Char.isDigit, cs.dropWhile Char.isDigit)

/-- The digits before the point: a zero alone, or digits that begin with none. -/
def scanWhole : List Char → Option (List Char × List Char)
  | '0' :: cs => if cs.head?.any Char.isDigit then none else some (['0'], cs)
  | cs => scanDigits cs

/-- A point with at least one digit after it, or nothing. -/
def scanFraction : List Char → Option (List Char × List Char)
  | '.' :: cs => (scanDigits cs).map fun (digits, rest) => ('.' :: digits, rest)
  | cs => some ([], cs)

/-- The sign of an exponent, or nothing. -/
def scanSign : List Char → List Char × List Char
  | '+' :: cs => (['+'], cs)
  | '-' :: cs => (['-'], cs)
  | cs => ([], cs)

/-- An exponent with at least one digit, or nothing. -/
def scanExponent : List Char → Option (List Char × List Char)
  | c :: cs =>
    if c = 'e' || c = 'E' then
      (scanDigits (scanSign cs).2).map fun (digits, rest) =>
        (c :: (scanSign cs).1 ++ digits, rest)
    else some ([], c :: cs)
  | [] => some ([], [])

/-- Split a text into the number without a sign that it begins with and the
rest. -/
def scanMagnitude (cs : List Char) : Option (List Char × List Char) := do
  let (whole, rest) ← scanWhole cs
  let (fraction, rest) ← scanFraction rest
  let (exponent, rest) ← scanExponent rest
  return (whole ++ fraction ++ exponent, rest)

theorem length_scanDigits {cs digits rest : List Char} (h : scanDigits cs = some (digits, rest)) :
    rest.length < cs.length := by
  unfold scanDigits at h
  split at h
  · simp at h
  · next hne =>
    cases h
    have hpos := List.length_pos_iff.2 hne
    have hsum :=
      congrArg List.length (List.takeWhile_append_dropWhile (p := Char.isDigit) (l := cs))
    rw [List.length_append] at hsum
    omega

theorem length_scanWhole {cs digits rest : List Char} (h : scanWhole cs = some (digits, rest)) :
    rest.length < cs.length := by
  unfold scanWhole at h
  split at h
  · split at h
    · simp at h
    · cases h
      simp
  · exact length_scanDigits h

theorem length_scanFraction {cs digits rest : List Char}
    (h : scanFraction cs = some (digits, rest)) : rest.length ≤ cs.length := by
  unfold scanFraction at h
  split at h
  · obtain ⟨⟨digits', rest'⟩, hs, heq⟩ := Option.map_eq_some_iff.1 h
    cases heq
    have := length_scanDigits hs
    simp only [List.length_cons]
    omega
  · cases h
    exact Nat.le_refl _

theorem length_scanSign (cs : List Char) : (scanSign cs).2.length ≤ cs.length := by
  unfold scanSign
  split <;> simp

theorem length_scanExponent {cs digits rest : List Char}
    (h : scanExponent cs = some (digits, rest)) : rest.length ≤ cs.length := by
  unfold scanExponent at h
  split at h
  · next c cs =>
    split at h
    · obtain ⟨⟨digits', rest'⟩, hs, heq⟩ := Option.map_eq_some_iff.1 h
      cases heq
      have := length_scanDigits hs
      have := length_scanSign cs
      simp only [List.length_cons]
      omega
    · cases h
      exact Nat.le_refl _
  · cases h
    exact Nat.le_refl _

theorem length_scanMagnitude {cs digits rest : List Char}
    (h : scanMagnitude cs = some (digits, rest)) : rest.length < cs.length := by
  simp only [scanMagnitude, Option.bind_eq_bind, Option.bind_eq_some_iff, Prod.exists,
    Option.pure_def, Option.some.injEq, Prod.mk.injEq] at h
  obtain ⟨_, _, hw, _, _, hf, _, _, he, _, rfl⟩ := h
  have := length_scanWhole hw
  have := length_scanFraction hf
  have := length_scanExponent he
  omega

/-- The token that a text without leading blanks begins with, and the rest.
There is no rest after an error. -/
def scanToken : List Char → Token × List Char
  | '\x7b' :: cs => (.openBrace, cs)
  | '\x7d' :: cs => (.closeBrace, cs)
  | '[' :: cs => (.openBracket, cs)
  | ']' :: cs => (.closeBracket, cs)
  | ':' :: cs => (.colon, cs)
  | ',' :: cs => (.comma, cs)
  | 'n' :: 'u' :: 'l' :: 'l' :: cs => (.null, cs)
  | 't' :: 'r' :: 'u' :: 'e' :: cs => (.bool true, cs)
  | 'f' :: 'a' :: 'l' :: 's' :: 'e' :: cs => (.bool false, cs)
  | '"' :: cs =>
    match scanString cs with
    | some (raw, rest) => (.string raw, rest)
    | none => (.bad, [])
  | '-' :: cs =>
    match scanMagnitude cs with
    | some (digits, rest) => (.number ('-' :: digits), rest)
    | none => (.bad, [])
  | cs =>
    match scanMagnitude cs with
    | some (digits, rest) => (.number digits, rest)
    | none => (.bad, [])

theorem length_scanToken (c : Char) (cs : List Char) :
    (scanToken (c :: cs)).2.length < (c :: cs).length := by
  unfold scanToken
  split
  case h_10 =>
    split
    · next hs =>
      have := length_scanString hs
      simp_all
      omega
    · simp
  case h_11 =>
    split
    · next hs =>
      have := length_scanMagnitude hs
      simp_all
      omega
    · simp
  case h_12 =>
    split
    · next hs => exact length_scanMagnitude hs
    · simp
  all_goals simp_all +arith

theorem length_scanToken_of_dropWhile {cs rest : List Char} {c : Char}
    (h : cs.dropWhile isSpace = c :: rest) : (scanToken (c :: rest)).2.length < cs.length := by
  have hlt := length_scanToken c rest
  have hle := (List.dropWhile_sublist isSpace (l := cs)).length_le
  rw [h] at hle
  omega

def tokens (cs : List Char) : List Token :=
  match h : cs.dropWhile isSpace with
  | [] => []
  | c :: rest =>
    have := length_scanToken_of_dropWhile h
    (scanToken (c :: rest)).1 :: tokens (scanToken (c :: rest)).2
termination_by cs.length

@[simp] theorem tokens_nil : tokens [] = [] := by
  simp [tokens]

end Json

end RedundantCast
