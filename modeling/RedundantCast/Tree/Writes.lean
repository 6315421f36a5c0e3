import RedundantCast.Tree.Basic

/-!
# Writes to a variable

A function body may write to a variable by an assignment to it, or by a
construct without a rule of its own that has it as a direct child (`foreach`,
`unset`).  Nested functions have variables of their own, except that a closure
that captures the variable may share it.
-/

namespace RedundantCast

/-- Whether a node of this form may share the variable with the function around
it: only a closure that captures it does, of all function-like nodes. -/
def Form.sharesVariable (name : String) : Form → Bool
  | .function parts => parts.kind == .closure && parts.captures.contains name
  | _ => true

namespace Tree

def isVariable (t : Tree) (name : String) (ref : NodeRef) : Bool :=
  (t.form? ref).bind Form.var? == some name

/-- Whether a node of this form writes to the variable itself. -/
def formWrites (t : Tree) (name : String) : Form → Bool
  | .assignment target _ => t.isVariable name target
  | .other items => items.any (t.isVariable name)
  | _ => false

/-- Whether a node, or one below it down to the given depth, writes to the
variable of the function around it.  The children are asked from the last to the
first. -/
def writesWithin (t : Tree) (name : String) : Nat → NodeId → Bool
  | 0, _ => false
  | depth + 1, id =>
    match t.form? (some id) with
    | none => false
    | some form =>
      form.sharesVariable name &&
        (t.formWrites name form || form.children.reverse.any (t.writesWithin name depth))

/-- Whether the body of a function may write to the variable. -/
def writes (t : Tree) (function : NodeRef) (name : String) : Bool :=
  (t.children function).reverse.any (t.writesWithin name t.size)

end Tree

end RedundantCast
