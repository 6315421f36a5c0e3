import RedundantCast.Tree.Arena

/-!
# Loops over an arena

The walks down and up an arena, one step at a time. The walk down keeps a stack
and puts the children of each node on it, the first one on top; the walk up goes
from parent to parent. Nothing in a step says that the loop ends.
-/

namespace RedundantCast

namespace Arena

/-- A walk down: what is still to be visited, the next node last, and what has
been visited, in order. -/
structure Descent where
  stack : Array NodeId
  visited : Array NodeId
  deriving DecidableEq, Repr, Inhabited

/-- A walk down starts with a node if it exists. -/
def descentFrom (a : Arena) (root : NodeRef) : Descent where
  stack := ((root.filter fun id => id < a.size).toList).toArray
  visited := #[]

/-- Visit the node on top of the stack. -/
def descend? (a : Arena) (d : Descent) : Option Descent :=
  d.stack.back?.map fun id =>
    { stack := d.stack.pop ++ (a.children (some id)).reverse
      visited := d.visited.push id }

/-- A walk up: the node that it is at, and the ancestors passed, in order. -/
structure Ascent where
  current : NodeRef
  passed : Array NodeId
  deriving DecidableEq, Repr, Inhabited

def ascentFrom (ref : NodeRef) : Ascent :=
  ⟨ref, #[]⟩

/-- Go on to the parent. -/
def ascend? (a : Arena) (s : Ascent) : Option Ascent :=
  (a.parent s.current).map fun p => ⟨some p, s.passed.push p⟩

/-- Go on to the parent if it is a pair of parentheses. -/
def leaveParentheses? (a : Arena) (ref : NodeRef) : Option NodeRef :=
  if a.kind? (a.parent ref) = some .parenthesizedExpression then some (a.parent ref) else none

/-- Whether the parent returns its operand, as a `return` and an arrow function
do. -/
def returnedByParent (a : Arena) (ref : NodeRef) : Bool :=
  match a.kind? (a.parent ref) with
  | some .returnStatement | some (.function .arrowFunction) => true
  | _ => false

end Arena

end RedundantCast
