import RedundantCast.Tree.Basic

/-!
# Looking outward

What a node lies in: its ancestors, the nearest scope, function and class
around it, its file, and whether it is the value that its function returns.
-/

namespace RedundantCast

namespace Tree

/-- The first so many ancestors of a node, innermost first. -/
def ancestorsWithin (t : Tree) : Nat → NodeRef → List NodeId
  | 0, _ => []
  | steps + 1, ref =>
    match t.parent ref with
    | none => []
    | some p => p :: t.ancestorsWithin steps (some p)

def ancestors (t : Tree) (ref : NodeRef) : List NodeId :=
  t.ancestorsWithin t.size ref

/-- The nearest strict ancestor whose kind satisfies `p`. -/
def enclosing? (t : Tree) (p : Kind → Bool) (ref : NodeRef) : NodeRef :=
  (t.ancestors ref).find? fun id => (t.kind? (some id)).any p

/-- The nearest file or function-like node around a node. -/
def enclosingScope? (t : Tree) (ref : NodeRef) : NodeRef :=
  t.enclosing? Kind.isScope ref

def enclosingFunction? (t : Tree) (ref : NodeRef) : NodeRef :=
  t.enclosing? Kind.isFunctionLike ref

def enclosingClass? (t : Tree) (ref : NodeRef) : NodeRef :=
  t.enclosing? (· == .classDeclaration) ref

/-- The outermost node around a node; a source file is its own. -/
def root? (t : Tree) (ref : NodeRef) : NodeRef :=
  if t.kind? ref = some .sourceFile then ref else (t.ancestors ref).getLast?

/-- The name of the file that contains a node, if the outermost node around it
is a file. -/
def fileName? (t : Tree) (ref : NodeRef) : Option String :=
  ((t.form? (t.root? ref)).bind Form.sourceFile?).map (·.1)

/-- Whether the first ancestor that is not a pair of parentheses returns what
is inside it, as a `return` and the body of an arrow function do. -/
def returnsInto (t : Tree) : List NodeId → Bool
  | [] => false
  | id :: outer =>
    match t.kind? (some id) with
    | some .parenthesizedExpression => t.returnsInto outer
    | some .returnStatement | some (.function .arrowFunction) => true
    | _ => false

/-- Whether a node is the value of its function. -/
def isReturnedValue (t : Tree) (ref : NodeRef) : Bool :=
  t.returnsInto (t.ancestors ref)

end Tree

end RedundantCast
