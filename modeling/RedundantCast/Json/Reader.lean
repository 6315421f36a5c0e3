import RedundantCast.Json.Contents

/-!
# Reading JSON from tokens

A reader takes a value from the front of the tokens and returns the rest, which
is shorter.  The first fault in the order of the text is the one reported.
-/

namespace RedundantCast

namespace Json

/-- Why a text was refused. -/
inductive Fault where
  /-- The text is not JSON, or a value is not of the kind it should be. -/
  | malformed
  /-- A string stands for a boolean and is not one of the words for it. -/
  | unknownBoolean (text : String)
  deriving DecidableEq, Repr, Inhabited

/-- The end of some tokens, at least the first of which is left out. -/
abbrev Rest (ts : List Token) : Type :=
  { rest : List Token // rest.length < ts.length }

/-- All but the first token. -/
def Rest.tail {t : Token} {ts : List Token} : Rest (t :: ts) :=
  ⟨ts, Nat.lt_succ_self _⟩

/-- The same end, seen from a token earlier. -/
def Rest.later {t : Token} {ts : List Token} (rest : Rest ts) : Rest (t :: ts) :=
  ⟨rest.1, Nat.lt_succ_of_lt rest.2⟩

/-- Reads a value from the front of the tokens. -/
abbrev Reader (α : Type) : Type :=
  (ts : List Token) → Except Fault (α × Rest ts)

/-! ### Values that are skipped -/

inductive Container where
  | array
  | object
  deriving DecidableEq, Repr

/-- What may come next. -/
inductive Expected where
  | value
  /-- The first item of an array, or its end. -/
  | firstItem
  /-- The first key of an object, or its end. -/
  | firstKey
  | key
  | colon
  /-- A comma, or the end of the innermost container. -/
  | separator
  deriving DecidableEq, Repr

/-- The open containers and what comes next, after a token that begins a
value. -/
def beginValue (stack : List Container) : Token → Option (List Container × Expected)
  | .openBracket => some (.array :: stack, .firstItem)
  | .openBrace => some (.object :: stack, .firstKey)
  | .null | .bool _ | .number _ | .string _ => some (stack, .separator)
  | _ => none

/-- The open containers and what comes next, after a token inside a value. -/
def advance (stack : List Container) (expected : Expected) (t : Token) :
    Option (List Container × Expected) :=
  match expected, t with
  | .value, t => beginValue stack t
  | .firstItem, .closeBracket => some (stack.tail, .separator)
  | .firstItem, t => beginValue stack t
  | .firstKey, .closeBrace => some (stack.tail, .separator)
  | .firstKey, .string _ => some (stack, .colon)
  | .key, .string _ => some (stack, .colon)
  | .colon, .colon => some (stack, .value)
  | .separator, .comma =>
    match stack with
    | .array :: _ => some (stack, .value)
    | .object :: _ => some (stack, .key)
    | [] => none
  | .separator, .closeBracket =>
    match stack with
    | .array :: outer => some (outer, .separator)
    | _ => none
  | .separator, .closeBrace =>
    match stack with
    | .object :: outer => some (outer, .separator)
    | _ => none
  | _, _ => none

/-- What follows the value that the tokens are inside of. -/
def skipFrom (stack : List Container) (expected : Expected) : List Token → Option (List Token)
  | [] => none
  | t :: ts =>
    match advance stack expected t with
    | none => none
    | some ([], .separator) => some ts
    | some (stack, expected) => skipFrom stack expected ts

theorem length_skipFrom {stack : List Container} {expected : Expected} {ts rest : List Token}
    (h : skipFrom stack expected ts = some rest) : rest.length < ts.length := by
  induction ts generalizing stack expected with
  | nil => simp [skipFrom] at h
  | cons t ts ih =>
    rw [skipFrom] at h
    split at h
    · simp at h
    · cases h
      simp
    · have := ih h
      simp only [List.length_cons]
      omega

/-- What follows the value at the front of the tokens. -/
def skip (ts : List Token) : Except Fault (Rest ts) :=
  match h : skipFrom [] .value ts with
  | some rest => .ok ⟨rest, length_skipFrom h⟩
  | none => .error .malformed

/-! ### Records -/

/-- A named part of a record, with a reader that sets it. -/
structure RecordField (σ : Type) where
  name : String
  read : σ → Reader σ

/-- Read the value of one member of an object.  A known one may come once, an
unknown one is skipped. -/
def readMember {σ : Type} (fields : List (RecordField σ)) (seen : List String) (record : σ)
    (key : String) : Reader σ := fun ts =>
  match fields.find? (·.name == key) with
  | some field => if seen.contains key then .error .malformed else field.read record ts
  | none => (skip ts).map fun rest => (record, rest)

/-- Read the members of an object up to its end. -/
def readMembers {σ : Type} (fields : List (RecordField σ)) (seen : List String) (record : σ)
    (ts : List Token) : Except Fault (σ × Rest ts) :=
  match ts with
  | .string raw :: .colon :: inner =>
    match text? raw with
    | none => .error .malformed
    | some key =>
      match readMember fields seen record key inner with
      | .error fault => .error fault
      | .ok (record, ⟨.comma :: more, h⟩) =>
        match readMembers fields (key :: seen) record more with
        | .error fault => .error fault
        | .ok (record, rest) =>
          .ok (record, ⟨rest.1, by have := rest.2; simp only [List.length_cons] at h ⊢; omega⟩)
      | .ok (record, ⟨.closeBrace :: more, h⟩) =>
        .ok (record, ⟨more, by simp only [List.length_cons] at h ⊢; omega⟩)
      | .ok _ => .error .malformed
  | _ => .error .malformed
termination_by ts.length
decreasing_by
  simp only [List.length_cons] at h ⊢
  omega

/-- Read at least one item of an array, the parts of a record in order, up to
the end of the array. -/
def readItems {σ : Type} : List (RecordField σ) → σ → Reader σ
  | [], _, _ => .error .malformed
  | field :: fields, record, ts =>
    match field.read record ts with
    | .error fault => .error fault
    | .ok (record, ⟨.comma :: more, h⟩) =>
      match readItems fields record more with
      | .error fault => .error fault
      | .ok (record, rest) =>
        .ok (record, ⟨rest.1, by have := rest.2; simp only [List.length_cons] at h; omega⟩)
    | .ok (record, ⟨.closeBracket :: more, h⟩) =>
      .ok (record, ⟨more, by simp only [List.length_cons] at h; omega⟩)
    | .ok _ => .error .malformed

/-- Read a record: an object with its parts by name, or an array with its first
parts in order.  Parts that are not there stay as they are in `record`. -/
def readRecord {σ : Type} (fields : List (RecordField σ)) (record : σ) : Reader σ
  | .openBrace :: .closeBrace :: _ => .ok (record, Rest.tail.later)
  | .openBracket :: .closeBracket :: _ => .ok (record, Rest.tail.later)
  | .openBrace :: inner =>
    (readMembers fields [] record inner).map fun (record, rest) =>
      (record, rest.later)
  | .openBracket :: inner =>
    (readItems fields record inner).map fun (record, rest) =>
      (record, rest.later)
  | _ => .error .malformed

/-- A value, or nothing where `null` stands. -/
def readOptional {α : Type} (read : Reader α) : Reader (Option α)
  | .null :: _ => .ok (none, .tail)
  | ts => (read ts).map fun (a, rest) => (some a, rest)

def readText : Reader String
  | .string raw :: _ =>
    match text? raw with
    | some text => .ok (text, .tail)
    | none => .error .malformed
  | _ => .error .malformed

def readBool : Reader Bool
  | .bool value :: _ => .ok (value, .tail)
  | _ => .error .malformed

/-- A whole number written with digits only, up to `bound`. -/
def readNat (bound : Nat) : Reader Nat
  | .number digits :: _ =>
    match Text.number? 10 digits with
    | some n => if n ≤ bound then .ok (n, .tail) else .error .malformed
    | none => .error .malformed
  | _ => .error .malformed

/-- Reads a value from a whole text. -/
abbrev Decoder (α : Type) : Type :=
  List Char → Except Fault α

def parse {α : Type} (read : Reader α) : Decoder α := fun cs =>
  match read (tokens cs) with
  | .error fault => .error fault
  | .ok (a, ⟨[], _⟩) => .ok a
  | .ok _ => .error .malformed

end Json

end RedundantCast
