import RedundantCast.Ty.Basic

/-!
# Type text

How a type is written: `int`, `\App\User`, `string|null`.  The canonical order
of members puts `null` first, the written form puts it last.
-/

namespace RedundantCast

namespace Ty

/-- The types in order, with the `null`s moved to the end. -/
def nullLast (ts : List Ty) : List Ty :=
  ts.filter (!·.isNull) ++ ts.filter isNull

/-- The word for a type that is neither an object nor a union. -/
def word : Ty → String
  | .void => "void"
  | .null => "null"
  | .bool => "bool"
  | .int => "int"
  | .float => "float"
  | .string => "string"
  | .array => "array"
  | .mixed => "mixed"
  | .object _ | .union _ => ""

def joinBars : List (List Char) → List Char
  | [] => []
  | [text] => text
  | text :: texts => text ++ '|' :: joinBars texts

@[simp] theorem joinBars_nil : joinBars [] = [] := rfl

@[simp] theorem joinBars_singleton (text : List Char) : joinBars [text] = text := rfl

@[simp] theorem joinBars_cons_cons (text text' : List Char) (texts : List (List Char)) :
    joinBars (text :: text' :: texts) = text ++ '|' :: joinBars (text' :: texts) := rfl

mutual

/-- The written form of a type. -/
def chars : Ty → List Char
  | .object name => name.text.toList
  | .union ms =>
    joinBars (otherChars ms ++ (ms.filter isNull).map fun t => t.word.toList)
  | t => t.word.toList

/-- The written forms of the types that are not `null`. -/
def otherChars : List Ty → List (List Char)
  | [] => []
  | t :: ts => if t.isNull then otherChars ts else chars t :: otherChars ts

end

theorem otherChars_eq (ts : List Ty) : otherChars ts = (ts.filter (!·.isNull)).map chars := by
  induction ts with
  | nil => rw [otherChars, List.filter_nil, List.map_nil]
  | cons t ts ih =>
    rw [otherChars, ih]
    by_cases h : t.isNull <;> simp [h]

/-- Members are written in order with the `null`s last. -/
theorem chars_union (ms : List Ty) : chars (.union ms) = joinBars ((nullLast ms).map chars) := by
  have hnull : (ms.filter isNull).map (fun t => t.word.toList) = (ms.filter isNull).map chars := by
    refine List.map_congr_left fun t ht => ?_
    have := (List.mem_filter.1 ht).2
    cases t with
    | null => rw [chars] <;> simp
    | _ => cases this
  rw [chars, otherChars_eq, hnull, nullLast, List.map_append]

/-- The written form of a type. -/
def text (t : Ty) : String :=
  String.ofList t.chars

end Ty

end RedundantCast
