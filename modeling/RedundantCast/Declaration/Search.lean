import RedundantCast.Declaration.Lineage

/-!
# Searching the class graph

The lineage of a class as a loop with a queue. A class waits in the queue once
for each edge that leads to it, and only counts when it first comes out.
-/

namespace RedundantCast

namespace Lineage

/-- A search: the classes met, the classes listed so far, in order, and the queue
of classes with their distances, the next one first. -/
structure Search where
  seen : List ClassName
  order : List ClassName
  queue : List (ClassName × Nat)
  deriving Repr, Inhabited

def Search.start (c : ClassName) : Search :=
  ⟨[], [], [(c, 0)]⟩

/-- The classes one level above a class, if that level is searched. -/
def above (edges : List ParentEdge) (depth : Nat) (c : ClassName) : List ClassName :=
  if maxLevels ≤ depth then [] else parents edges c

/-- Take a class out of the queue. One that is new is listed, and the classes above
it go to the end of the queue. -/
def Search.next? (edges : List ParentEdge) (s : Search) : Option Search :=
  match s.queue with
  | [] => none
  | (c, depth) :: queue =>
    if s.seen.contains c then some { s with queue := queue }
    else
      some
        { seen := c :: s.seen
          order := s.order ++ [c]
          queue := queue ++ (above edges depth c).map (·, depth + 1) }

end Lineage

end RedundantCast
