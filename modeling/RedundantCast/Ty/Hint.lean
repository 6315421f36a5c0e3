import RedundantCast.Text.Split
import RedundantCast.Ty.Union

/-!
# Type hints

Reading native type declarations (`?string`, `int|float`) and the dialect of
doc comments (`integer`, `string[]`, `array<int, string>`).  Every text has a
type: what cannot be pinned to one type of the lattice is `mixed`.
-/

namespace RedundantCast

namespace Hint

open Text

def depthStep (c : Char) : Int :=
  if c = '<' || c = '(' || c = '\x7b' then 1
  else if c = '>' || c = ')' || c = '\x7d' then -1
  else 0

/-- The parts of a text between the bars at bracket depth zero, for a text that
is entered at the given depth. -/
def alternativesFrom (depth : Int) : List Char → List (List Char)
  | [] => [[]]
  | c :: cs =>
    if c = '|' && depth == 0 then [] :: alternativesFrom depth cs
    else
      match alternativesFrom (depth + depthStep c) cs with
      | [] => [[c]]
      | part :: parts => (c :: part) :: parts

def alternatives (cs : List Char) : List (List Char) :=
  alternativesFrom 0 cs

/-- Whether there is a bar at bracket depth zero, in a text that is entered at
the given depth. -/
def hasBarFrom (depth : Int) : List Char → Bool
  | [] => false
  | c :: cs => (c == '|' && depth == 0) || hasBarFrom (depth + depthStep c) cs

def isUnionHint (cs : List Char) : Bool :=
  hasBarFrom 0 cs

@[simp] theorem alternativesFrom_nil (depth : Int) : alternativesFrom depth [] = [[]] := rfl

theorem alternativesFrom_ne_nil (depth : Int) (cs : List Char) : alternativesFrom depth cs ≠ [] := by
  cases cs with
  | nil => simp
  | cons c cs =>
    rw [alternativesFrom]
    split
    · simp
    · split <;> simp

/-- A text with a bar has more than one alternative. -/
theorem hasBarFrom_iff (depth : Int) (cs : List Char) :
    hasBarFrom depth cs = true ↔ 2 ≤ (alternativesFrom depth cs).length := by
  induction cs generalizing depth with
  | nil => simp [hasBarFrom]
  | cons c cs ih =>
    rw [hasBarFrom, alternativesFrom]
    by_cases hc : (c = '|' && depth == 0) = true
    · have hpos := List.length_pos_iff.2 (alternativesFrom_ne_nil depth cs)
      have hbar : (c == '|' && depth == 0) = true := by simpa using hc
      simp only [hbar, hc, Bool.true_or, if_true, List.length_cons, true_iff]
      omega
    · have hbar : (c == '|' && depth == 0) = false := by simpa using hc
      rw [hbar, Bool.false_or, ih, if_neg hc]
      split
      · next h => exact absurd h (alternativesFrom_ne_nil _ cs)
      · next h => simp [h]

theorem length_alternativesFrom_le (depth : Int) (cs : List Char) :
    (alternativesFrom depth cs).length ≤ cs.length + 1 := by
  induction cs generalizing depth with
  | nil => exact Nat.le_refl _
  | cons c cs ih =>
    rw [alternativesFrom]
    split
    · exact Nat.succ_le_succ (ih depth)
    · have hle := ih (depth + depthStep c)
      split
      · simp
      · next h =>
        rw [h] at hle
        exact Nat.le_succ_of_le hle

/-- Each bar between two parts takes one character of the text. -/
theorem length_le_of_mem_alternativesFrom {depth : Int} {cs part : List Char}
    (h : part ∈ alternativesFrom depth cs) :
    part.length + (alternativesFrom depth cs).length ≤ cs.length + 1 := by
  induction cs generalizing depth part with
  | nil =>
    obtain rfl := List.mem_singleton.1 h
    exact Nat.le_refl _
  | cons c cs ih =>
    rw [alternativesFrom] at h ⊢
    split at h <;> rename_i hc
    · rw [if_pos hc]
      have hle := length_alternativesFrom_le depth cs
      simp only [List.length_cons]
      rcases List.mem_cons.1 h with rfl | h
      · simp only [List.length_nil]
        omega
      · have := ih h
        omega
    · rw [if_neg hc]
      cases hs : alternativesFrom (depth + depthStep c) cs with
      | nil =>
        simp only [hs, List.mem_singleton] at h
        simp [h]
      | cons first others =>
        simp only [hs, List.mem_cons] at h
        simp only [List.length_cons]
        rcases h with rfl | h
        · have hfirst : first ∈ alternativesFrom (depth + depthStep c) cs := by simp [hs]
          have := ih hfirst
          simp only [hs, List.length_cons] at this ⊢
          omega
        · have hpart : part ∈ alternativesFrom (depth + depthStep c) cs := by simp [hs, h]
          have := ih hpart
          simp only [hs, List.length_cons] at this
          omega

theorem length_le_of_mem_alternatives {cs part : List Char} (h : part ∈ alternatives cs) :
    part.length + (alternatives cs).length ≤ cs.length + 1 :=
  length_le_of_mem_alternativesFrom h

/-- The words that stand for one type of the lattice. -/
def words : List (String × Ty) :=
  [("int", .int), ("integer", .int), ("positive-int", .int), ("negative-int", .int),
    ("non-negative-int", .int), ("non-positive-int", .int), ("non-zero-int", .int),
    ("bool", .bool), ("boolean", .bool), ("true", .bool), ("false", .bool),
    ("float", .float), ("double", .float), ("real", .float),
    ("string", .string), ("non-empty-string", .string), ("numeric-string", .string),
    ("class-string", .string), ("literal-string", .string), ("lowercase-string", .string),
    ("non-falsy-string", .string), ("truthy-string", .string),
    ("array", .array), ("list", .array), ("non-empty-array", .array), ("non-empty-list", .array),
    ("null", .null), ("void", .void), ("mixed", .mixed)]

/-- The words that look like a class name and have no type in the lattice. -/
def vagueWords : List String :=
  ["object", "callable", "iterable", "resource", "self", "static", "parent", "never", "scalar",
    "numeric", "array-key", "closed-resource", "$this"]

/-- A letter, an underscore or any character outside ASCII. -/
def startsName (c : Char) : Bool :=
  c.isAlpha || c == '_' || 128 ≤ c.toNat

def continuesName (c : Char) : Bool :=
  c.isAlphanum || c == '_' || 128 ≤ c.toNat

/-- A name without backslashes. -/
def isSegment : List Char → Bool
  | [] => false
  | c :: cs => startsName c && cs.all continuesName

/-- Names joined by backslashes, with any number of backslashes in front. -/
def isClassName (cs : List Char) : Bool :=
  (splitOn '\\' (dropBackslashes cs)).all isSegment

/-- Whether a character opens the arguments of a generic type. -/
def opensArguments (c : Char) : Bool :=
  c == '<' || c == '\x7b'

/-- The type of a hint that is a single word, with or without arguments. -/
def ofWord (cs : List Char) : Ty :=
  let base := cs.takeWhile (!opensArguments ·)
  let word := String.ofList (lower base)
  match words.lookup word with
  | some t => t
  | none =>
    if cs.any opensArguments || vagueWords.contains word then .mixed
    else if isClassName base then .ofClass (String.ofList base)
    else .mixed

/-- The text between the parentheses around it, if it begins and ends with
one. -/
def unparenthesized? : List Char → Option (List Char)
  | '(' :: cs => if cs.getLast? = some ')' then some cs.dropLast else none
  | _ => none

theorem length_unparenthesized? {cs inner : List Char} (h : unparenthesized? cs = some inner) :
    inner.length < cs.length := by
  unfold unparenthesized? at h
  split at h
  · split at h
    · cases h
      simp only [List.length_dropLast, List.length_cons]
      omega
    · simp at h
  · simp at h

mutual

/-- The type of a whole hint without blanks around it.  A `?` in front makes all
of it nullable. -/
def ofChars (cs : List Char) : Ty :=
  if cs = [] then .mixed
  else if cs.head? = some '?' then .nullable (ofChars (trimStart cs.tail))
  else if isUnionHint cs then
    .unionOf ((alternatives cs).attach.map fun part => ofAlternative (trim part.1))
  else ofAlternative cs
termination_by (cs.length, 1)
decreasing_by
  · rename_i hne _
    apply Prod.Lex.left
    have := length_trimStart_le cs.tail
    have : 0 < cs.length := List.length_pos_iff.2 hne
    simp only [List.length_tail] at *
    omega
  · rename_i hbar
    apply Prod.Lex.left
    have := length_trim_le part.1
    have := length_le_of_mem_alternatives part.2
    have : 2 ≤ (alternatives cs).length := (hasBarFrom_iff 0 _).1 hbar
    omega
  · exact Prod.Lex.right _ (by decide)

/-- The type of one alternative without blanks around it.  A `?` in front makes
it nullable, parentheses around it hold a whole hint, an intersection says
nothing, and `[]` at the end makes an array. -/
def ofAlternative (cs : List Char) : Ty :=
  if cs.head? = some '?' then .nullable (ofAlternative (trimStart cs.tail))
  else
    match h : unparenthesized? cs with
    | some inner =>
      have := length_unparenthesized? h
      ofChars (trim inner)
    | none =>
      if cs.contains '&' then .mixed
      else if ['[', ']'].isSuffixOf cs then .array
      else ofWord cs
termination_by (cs.length, 0)
decreasing_by
  · rename_i hq
    apply Prod.Lex.left
    have := length_trimStart_le cs.tail
    have : 0 < cs.length := by
      cases h : cs with
      | nil => simp [h] at hq
      | cons c cs => simp
    simp only [List.length_tail] at *
    omega
  · apply Prod.Lex.left
    have := length_trim_le inner
    omega

end

def parse (text : String) : Ty :=
  ofChars (trim text.toList)

end Hint

end RedundantCast
