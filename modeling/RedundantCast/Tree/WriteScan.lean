import RedundantCast.Tree.Writes

/-!
# The loop of the write scan

The scan of a function for writes to a variable, one step at a time. It keeps a
stack of the nodes that it has still to look at, goes into no node that has a
variable of its own, and stops at the first write. Nothing in a step says that
the loop ends.
-/

namespace RedundantCast

/-- A scan on its way: the nodes that it has still to look at, the next one last,
and whether it has found a write. -/
structure WriteScan where
  stack : Array NodeId
  found : Bool
  deriving DecidableEq, Repr, Inhabited

namespace Tree

/-- A scan starts with the children of the function. -/
def writeScanFrom (t : Tree) (function : NodeRef) : WriteScan where
  stack := (t.children function).toArray
  found := false

/-- Look at the node on top of the stack. -/
def scan? (t : Tree) (name : String) (s : WriteScan) : Option WriteScan :=
  if s.found then none
  else
    s.stack.back?.map fun id =>
      match t.form? (some id) with
      | none => ⟨s.stack.pop, false⟩
      | some form =>
        if form.sharesVariable name then
          if t.formWrites name form then ⟨s.stack.pop, true⟩
          else ⟨s.stack.pop ++ t.children (some id), false⟩
        else ⟨s.stack.pop, false⟩

end Tree

end RedundantCast
