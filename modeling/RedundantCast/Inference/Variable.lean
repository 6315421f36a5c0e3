import RedundantCast.Inference.Basic
import RedundantCast.Tree.Enclosing

/-!
# Variable lookup

A variable is looked up in the scope around it.  If it is not declared there,
the search goes on outside an arrow function of which it is no parameter, and
outside a closure that captures it.
-/

namespace RedundantCast

/-- How many scopes a lookup visits. -/
def maxScopes : Nat := 32

/-- Whether a name that is not declared in the scope of a function-like node is
the same variable as outside it. -/
def FunctionForm.isTransparentTo (f : FunctionForm) (name : String) : Bool :=
  match f.kind with
  | .arrowFunction => !f.parameters.contains name
  | .closure => !f.parameters.contains name && f.captures.contains name
  | .functionDeclaration | .methodDeclaration => false

namespace Context

def continuesOutward (ctx : Context) (scopeNode : NodeRef) (name : String) : Bool :=
  ((ctx.tree.form? scopeNode).bind Form.function?).any (·.isTransparentTo name)

/-- The winning declaration of a name as seen from a node, and the node that
opens the scope it was found in; so many scopes are visited. -/
def lookupWithin (ctx : Context) (name : String) :
    Nat → NodeRef → Except Failure (NodeRef × Declaration)
  | 0, _ => .error .depthExceeded
  | n + 1, ref =>
    let scopeNode := ctx.tree.enclosingScope? ref
    match ctx.tree.scope? scopeNode with
    | none => .error .unresolvedType
    | some scope =>
      match ctx.provider.variableTypes scope name with
      | .error _ => .error .providerUnavailable
      | .ok declarations =>
        match Declaration.winner? declarations with
        | some winner => .ok (scopeNode, winner)
        | none =>
          if ctx.continuesOutward scopeNode name then ctx.lookupWithin name n scopeNode
          else .error .unresolvedType

/-- The winning declaration of a name as seen from a node. -/
def lookup (ctx : Context) (name : String) (ref : NodeRef) :
    Except Failure (NodeRef × Declaration) :=
  ctx.lookupWithin name maxScopes ref

end Context

end RedundantCast
