import RedundantCast.Check.Finding
import RedundantCast.Inference.Resolve

/-!
# Analysis of one cast

A cast is redundant if its operand certainly has exactly the target type.  A
returned cast is left alone where it may be what makes a documented return type
true.
-/

namespace RedundantCast

namespace Context

/-- The callable whose return type a returned node serves, unless it is
declared in the signature: the named function or method that the node is the
value of. -/
def servedCallable? (ctx : Context) (ref : NodeRef) : Option Callable :=
  if ctx.tree.isReturnedValue ref then
    let function := ctx.tree.enclosingFunction? ref
    match (ctx.tree.form? function).bind Form.function? with
    | some f =>
      if f.hasNativeReturn then none
      else
        f.name.bind fun name =>
          match f.kind with
          | .functionDeclaration => some (.function name)
          | .methodDeclaration => (ctx.enclosingClassName? function).map (.method · name)
          | .closure | .arrowFunction => none
    | none => none
  else none

/-- Whether a node is returned as a type that is only documented.  If the
provider fails to answer, it may be. -/
def servesDocumentedReturn (ctx : Context) (ref : NodeRef) : Bool :=
  match ctx.servedCallable? ref with
  | none => false
  | some callable =>
    match ctx.provider.returnType callable with
    | .ok declaration => declaration.any (·.source == .returnDocHint)
    | .error _ => true

/-- The finding about a cast to `target`, if the operand has that type.  A
nullable operand does not: the cast turns its `null` into a value. -/
def judge (id : NodeId) (span : Span) (keyword : String) (token : Span) (target : Ty)
    (operandType : Inference) : Option Finding :=
  match operandType with
  | .certain t => if t == target then some (.ofCast id span keyword token t) else none
  | .unknown => none

/-- The finding about a node, which only a redundant cast has. -/
def analyze (ctx : Context) (ref : NodeRef) (m : Memory) : Option Finding × Memory :=
  match ref, ctx.tree.node? ref with
  | some id, some ⟨.cast keyword token operand, span, _, _⟩ =>
    match (CastKind.ofKeyword keyword).target? with
    | none => (none, m)
    | some target =>
      if ctx.options.skipDocOnlyReturns && ctx.servesDocumentedReturn ref then (none, m)
      else
        let (operandType, m) := ctx.infer operand m
        (judge id span keyword token target operandType, m)
  | _, _ => (none, m)

end Context

end RedundantCast
