import RedundantCast.Proofs.Text.LetterCase
import RedundantCast.Proofs.Ty.Order

/-!
# Letter case in types

Class names that differ in letter case alone are the same names, and types that
differ in the letter case of class names alone are equal. `lowered` is the
spelling that stands for all of them: whatever is built of lowered types is the
lowered form of what is built of the types.
-/

namespace RedundantCast

namespace ClassName

/-- The name spelled in lower case. -/
def lowered (c : ClassName) : ClassName :=
  spelled (Text.lowered c.text)

@[simp] theorem keyOf_lowered (text : String) : keyOf (Text.lowered text) = keyOf text := by
  simp [keyOf, Text.lowered]

@[simp] theorem lowered_spelled (text : String) :
    (spelled text).lowered = spelled (Text.lowered text) := rfl

@[simp] theorem key_lowered (c : ClassName) : c.lowered.key = c.key := by
  rw [lowered, key_spelled, keyOf_lowered, c.key_eq]

@[simp] theorem ofText_lowered (text : String) :
    ofText (Text.lowered text) = (ofText text).lowered := by
  simp [ofText]

@[simp] theorem lowered_beq_lowered (a b : ClassName) : (a.lowered == b.lowered) = (a == b) := by
  rw [Bool.eq_iff_iff, beq_iff, beq_iff, key_lowered, key_lowered]

theorem contains_lowered (cs : List ClassName) (c : ClassName) :
    (cs.map lowered).contains c.lowered = cs.contains c := by
  induction cs with
  | nil => rfl
  | cons d cs ih => simp [ih]

end ClassName

namespace Ty

mutual

/-- The type with its class names spelled in lower case. -/
def lowered : Ty → Ty
  | .object name => .object name.lowered
  | .union ms => .union (loweredMembers ms)
  | t => t

def loweredMembers : List Ty → List Ty
  | [] => []
  | t :: ts => lowered t :: loweredMembers ts

end

theorem loweredMembers_eq_map (ts : List Ty) : loweredMembers ts = ts.map lowered := by
  induction ts with
  | nil => rfl
  | cons t ts ih => rw [loweredMembers, ih, List.map_cons]

@[simp] theorem lowered_union (ms : List Ty) : (union ms).lowered = .union (ms.map lowered) := by
  rw [lowered, loweredMembers_eq_map]

@[simp] theorem isMixed_lowered (t : Ty) : t.lowered.isMixed = t.isMixed := by
  cases t <;> rfl

theorem members_lowered (t : Ty) : t.lowered.members = t.members.map lowered := by
  cases t with
  | union ms => rw [lowered_union, members_union, members_union]
  | _ => rfl

mutual

/-- The word of a type holds the keys of class names, not their spellings. -/
theorem code_lowered (t : Ty) : t.lowered.code = t.code := by
  cases t with
  | object name => rw [lowered, code, code, name.key_lowered]
  | union ms => rw [lowered, code, code, codeMembers_lowered]
  | _ => rfl

theorem codeMembers_lowered (ts : List Ty) : codeMembers (loweredMembers ts) = codeMembers ts := by
  cases ts with
  | nil => rfl
  | cons t ts => rw [loweredMembers, codeMembers, codeMembers, code_lowered, codeMembers_lowered]

end

theorem cmp_lowered (a b : Ty) : cmp a.lowered b.lowered = cmp a b := by
  rw [cmp_eq_compare_code, cmp_eq_compare_code, code_lowered, code_lowered]

/-- Types that differ in letter case alone are equal. -/
theorem beq_of_lowered_eq {a b : Ty} (h : a.lowered = b.lowered) : (a == b) = true := by
  rw [beq_iff_code_eq, ← code_lowered a, h, code_lowered]

theorem insertMember_lowered (t : Ty) (ts : List Ty) :
    insertMember t.lowered (ts.map lowered) = (insertMember t ts).map lowered := by
  induction ts with
  | nil => rfl
  | cons m ms ih =>
      rw [List.map_cons, insertMember, insertMember, cmp_lowered]
      cases cmp t m with
      | lt => rfl
      | eq => rfl
      | gt => exact congrArg (m.lowered :: ·) ih

theorem sortMembers_lowered (ts : List Ty) :
    sortMembers (ts.map lowered) = (sortMembers ts).map lowered := by
  induction ts with
  | nil => rfl
  | cons t ts ih => rw [List.map_cons, sortMembers_cons, sortMembers_cons, ih, insertMember_lowered]

theorem ofMembers_lowered (ts : List Ty) : ofMembers (ts.map lowered) = (ofMembers ts).lowered := by
  match ts with
  | [] => rfl
  | [t] => rfl
  | a :: b :: ts => rw [ofMembers_cons_cons, lowered_union]; rfl

theorem unionOf_lowered (ts : List Ty) : unionOf (ts.map lowered) = (unionOf ts).lowered := by
  have hmixed : (ts.map lowered).any isMixed = ts.any isMixed := by
    simp [List.any_map, Function.comp_def]
  have hmembers : (ts.map lowered).flatMap members = (ts.flatMap members).map lowered := by
    simp [List.flatMap_map, List.map_flatMap, members_lowered]
  rw [unionOf, unionOf, hmixed, hmembers, sortMembers_lowered, ofMembers_lowered]
  split
  · rfl
  · rfl

end Ty

end RedundantCast
