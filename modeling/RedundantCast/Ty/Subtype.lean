import RedundantCast.Ty.Union

/-!
# Subtyping

`s` is a subtype of `t` if they are equal, if `t` is `mixed`, if `s` is a union
of subtypes of `t`, if `t` is a union with a member above `s`, or if both are
objects and the class hierarchy says so.  Primitive types are unrelated.
-/

namespace RedundantCast

/-- A set of classes, given by its members. -/
structure ClassSet where
  contains : ClassName → Bool

def ClassSet.empty : ClassSet := ⟨fun _ => false⟩

/-- The classes that each class extends or implements, itself apart. -/
abbrev Hierarchy : Type := ClassName → ClassSet

/-- No class is related to another. -/
def Hierarchy.empty : Hierarchy := fun _ => .empty

namespace Ty

/-- The classes above a type, which only objects have. -/
def above (h : Hierarchy) : Ty → ClassSet
  | .object a => h a
  | _ => .empty

mutual

/-- Subtyping for a source that is neither a union nor `mixed`, with the classes
above it. -/
def fits (s : Ty) (above : ClassSet) : Ty → Bool
  | .mixed => true
  | .union ts => fitsSome s above ts
  | .object b =>
    match s with
    | .object a => a == b || above.contains b
    | _ => false
  | t => beq s t

def fitsSome (s : Ty) (above : ClassSet) : List Ty → Bool
  | [] => false
  | t :: ts => fits s above t || fitsSome s above ts

end

mutual

/-- Whether `s` is a subtype of `t` under the hierarchy. -/
def isSubtype (h : Hierarchy) : Ty → Ty → Bool
  | .mixed, t => t.isMixed
  | .union ms, t => beq (.union ms) t || t.isMixed || allSubtypes h ms t
  | s, t => fits s (s.above h) t

def allSubtypes (h : Hierarchy) : List Ty → Ty → Bool
  | [], _ => true
  | m :: ms, t => isSubtype h m t && allSubtypes h ms t

end

theorem fitsSome_eq_any (s : Ty) (above : ClassSet) (ts : List Ty) :
    fitsSome s above ts = ts.any (fits s above) := by
  induction ts with
  | nil => rfl
  | cons t ts ih => simp [fitsSome, ih]

theorem allSubtypes_eq_all (h : Hierarchy) (ms : List Ty) (t : Ty) :
    allSubtypes h ms t = ms.all (isSubtype h · t) := by
  induction ms with
  | nil => rfl
  | cons m ms ih => simp [allSubtypes, ih]

def areEquivalent (h : Hierarchy) (s t : Ty) : Bool :=
  isSubtype h s t && isSubtype h t s

end Ty

end RedundantCast
