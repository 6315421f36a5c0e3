import RedundantCast.Ty.Basic

/-!
# Unions

`Ty.unionOf` builds the normalized union of some types: flat, in canonical
order, each member once, and `mixed` as soon as one of the types is.
-/

namespace RedundantCast

namespace Ty

/-- Insert a type into an ascending list, in place of an equal one. -/
def insertMember (t : Ty) : List Ty → List Ty
  | [] => [t]
  | m :: ms =>
    match cmp t m with
    | .lt => t :: m :: ms
    | .eq => t :: ms
    | .gt => m :: insertMember t ms

@[simp] theorem insertMember_nil (t : Ty) : insertMember t [] = [t] := rfl

/-- The types in canonical order, of equal ones the first. -/
def sortMembers (ts : List Ty) : List Ty :=
  ts.foldr insertMember []

@[simp] theorem sortMembers_nil : sortMembers [] = [] := rfl

@[simp] theorem sortMembers_cons (t : Ty) (ts : List Ty) :
    sortMembers (t :: ts) = insertMember t (sortMembers ts) := rfl

/-- The type with the given members: no member says nothing, and one member
stands for itself. -/
def ofMembers : List Ty → Ty
  | [] => .mixed
  | [t] => t
  | ts => .union ts

@[simp] theorem ofMembers_nil : ofMembers [] = .mixed := rfl

@[simp] theorem ofMembers_singleton (t : Ty) : ofMembers [t] = t := rfl

@[simp] theorem ofMembers_cons_cons (a b : Ty) (ts : List Ty) :
    ofMembers (a :: b :: ts) = .union (a :: b :: ts) := rfl

/-- The normalized union of some types. -/
def unionOf (ts : List Ty) : Ty :=
  if ts.any isMixed then .mixed else ofMembers (sortMembers (ts.flatMap members))

def union2 (a b : Ty) : Ty :=
  unionOf [a, b]

def nullable (t : Ty) : Ty :=
  unionOf [t, .null]

/-- The type without `null`; `null` alone stays. -/
def withoutNull : Ty → Ty
  | .union ms => unionOf (ms.filter (!·.isNull))
  | t => t

/-- Whether each type is followed by a greater one. -/
def strictlyAscending : List Ty → Bool
  | a :: b :: ts => cmp a b == .lt && strictlyAscending (b :: ts)
  | _ => true

/-- Whether a union has at least two members, in ascending order, none of them
a union or `mixed`.  Other types are always normalized. -/
def isNormalized : Ty → Bool
  | .union ms =>
    2 ≤ ms.length && strictlyAscending ms && ms.all fun m => !m.isUnion && !m.isMixed
  | _ => true

theorem unionOf_of_mixed {ts : List Ty} (h : .mixed ∈ ts) : unionOf ts = .mixed := by
  have : ts.any isMixed = true := List.any_eq_true.2 ⟨_, h, rfl⟩
  simp [unionOf, this]

end Ty

end RedundantCast
