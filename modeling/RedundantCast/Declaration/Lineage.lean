import RedundantCast.Ty.ClassName

/-!
# Class lineage

The ancestors of a class along the edges from classes to those they extend or
implement, level by level: the classes at distance zero, one, two and so on.
-/

namespace RedundantCast

/-- A class and a class that it extends or implements. -/
structure ParentEdge where
  child : ClassName
  parent : ClassName
  deriving Repr, Inhabited

namespace Lineage

/-- How many levels above a class are searched. -/
def maxLevels : Nat := 64

/-- The direct parents of a class, in order of declaration. -/
def parents (edges : List ParentEdge) (c : ClassName) : List ClassName :=
  (edges.filter (·.child == c)).map ParentEdge.parent

/-- The classes that are not among `seen`, each once. -/
def fresh (seen : List ClassName) : List ClassName → List ClassName
  | [] => []
  | c :: cs =>
    if seen.contains c then fresh seen cs else c :: fresh (c :: seen) cs

@[simp] theorem fresh_nil (seen : List ClassName) : fresh seen [] = [] := rfl

/-- The classes of one level and of so many levels above it, without those
below it, which are `seen`. -/
def levels (edges : List ParentEdge) : Nat → List ClassName → List ClassName → List ClassName
  | 0, _, level => level
  | n + 1, seen, level =>
    level ++
      levels edges n (level ++ seen) (fresh (level ++ seen) (level.flatMap (parents edges)))

/-- A class followed by its ancestors, nearest first, each once. -/
def ofClass (edges : List ParentEdge) (c : ClassName) : List ClassName :=
  levels edges maxLevels [] [c]

/-- The strict ancestors of a class. -/
def ancestors (edges : List ParentEdge) (c : ClassName) : List ClassName :=
  (ofClass edges c).tail

theorem levels_zero (edges : List ParentEdge) (seen level : List ClassName) :
    levels edges 0 seen level = level := rfl

theorem ofClass_eq_cons (edges : List ParentEdge) (c : ClassName) :
    ofClass edges c = c :: ancestors edges c := rfl

end Lineage

end RedundantCast
