import RedundantCast.Ty.ClassName

/-!
# Types

The type lattice: primitive types, objects of a class, unions, and `mixed` at
the top, which says nothing about a value.  Types are compared by structure,
class names by their key, and `Ty.cmp` is the canonical order of union members.
-/

namespace RedundantCast

/-- A static type.  Normalized unions come from `Ty.unionOf`. -/
inductive Ty where
  | void
  | null
  | bool
  | int
  | float
  | string
  | array
  | object (name : ClassName)
  | mixed
  | union (members : List Ty)
  deriving Repr, Inhabited

namespace Ty

def ofClass (text : String) : Ty :=
  .object (ClassName.ofText text)

/-- The place of a type's constructor in the canonical order. -/
def rank : Ty → Nat
  | .void => 0
  | .null => 1
  | .bool => 2
  | .int => 3
  | .float => 4
  | .string => 5
  | .array => 6
  | .object _ => 7
  | .mixed => 8
  | .union _ => 9

mutual

/-- Structural equality, class names by key. -/
def beq : Ty → Ty → Bool
  | .object a, .object b => a == b
  | .union as, .union bs => beqMembers as bs
  | a, b => a.rank == b.rank

def beqMembers : List Ty → List Ty → Bool
  | [], [] => true
  | a :: as, b :: bs => beq a b && beqMembers as bs
  | _, _ => false

end

instance : BEq Ty := ⟨beq⟩

mutual

/-- The canonical order: by constructor, objects by class key, unions member by
member. -/
def cmp : Ty → Ty → Ordering
  | .object a, .object b => compare a b
  | .union as, .union bs => cmpMembers as bs
  | a, b => compare a.rank b.rank

def cmpMembers : List Ty → List Ty → Ordering
  | [], [] => .eq
  | [], _ :: _ => .lt
  | _ :: _, [] => .gt
  | a :: as, b :: bs => (cmp a b).then (cmpMembers as bs)

end

instance : Ord Ty := ⟨cmp⟩

theorem beq_def (a b : Ty) : (a == b) = beq a b := rfl

/-- The members of a union; any other type is its own only member. -/
def members : Ty → List Ty
  | .union ms => ms
  | t => [t]

@[simp] theorem members_union (ms : List Ty) : (union ms).members = ms := rfl

def isUnion : Ty → Bool
  | .union _ => true
  | _ => false

def isNull : Ty → Bool
  | .null => true
  | _ => false

def isMixed : Ty → Bool
  | .mixed => true
  | _ => false

def isNumeric : Ty → Bool
  | .int | .float => true
  | _ => false

/-- Whether the type is a union with `null` among its members. -/
def isNullable : Ty → Bool
  | .union ms => ms.any isNull
  | _ => false

def hasMember (t m : Ty) : Bool :=
  t.members.contains m

@[simp] theorem isNull_iff {t : Ty} : t.isNull = true ↔ t = .null := by
  cases t <;> simp [isNull]

@[simp] theorem isMixed_iff {t : Ty} : t.isMixed = true ↔ t = .mixed := by
  cases t <;> simp [isMixed]

end Ty

end RedundantCast
