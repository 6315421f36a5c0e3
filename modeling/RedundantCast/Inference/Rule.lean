import RedundantCast.Inference.IntegerLiteral
import RedundantCast.Inference.Variable
import RedundantCast.Operator.Result

/-!
# Inference rules

The type of a node from what is known of its operands.  `Form.operands` says
which nodes these are, and `Context.rule` is the rule of each construct.  A
native parameter type holds only while the body does not write to the
parameter, so a rule may also depend on the outcome of a write scan, which
`Context.scanned?` names.
-/

namespace RedundantCast

/-- The nodes whose types the type of a form is computed from, in the order in
which they are inferred. -/
def Form.operands : Form → List NodeRef
  | .propertyAccess receiver (some _) => [receiver]
  | .methodCall receiver (some _) _ => [receiver]
  | .binary left _ right => [left, right]
  | .unary _ operand => [operand]
  | .parenthesized expr => [expr]
  | .assignment _ value => [value]
  | _ => []

/-- What the types of the operands are; missing answers are unknown. -/
def operand (answers : List Inference) (index : Nat) : Option Ty :=
  (answers[index]?.getD .unknown).type?

/-- A declared type, which says nothing if it is `mixed`. -/
def informative (t : Ty) : Except Failure Ty :=
  if t.isMixed then .error .unresolvedType else .ok t

def resolved {α : Type} : Option α → Except Failure α
  | some a => .ok a
  | none => .error .unresolvedType

/-- The answer of a provider, whose errors count as no information. -/
def answered {α : Type} : Except ProviderError α → Except Failure α
  | .ok a => .ok a
  | .error _ => .error .providerUnavailable

/-- The class of a receiver, which must be an object. -/
def receiverClass (t : Option Ty) : Except Failure ClassName :=
  match t with
  | some (.object name) => .ok name
  | _ => .error .unresolvedType

namespace Context

/-- Whether a declaration from this source is trusted. -/
def trusts (ctx : Context) (s : Source) : Bool :=
  match s with
  | .parameterHint | .returnHint | .propertyHint => true
  | .localDocHint | .inferred => true
  | .propertyDocHint => ctx.options.trustPropertyDocs
  | .parameterDocHint | .returnDocHint => false

def trustedType (ctx : Context) (d : Declaration) : Except Failure Ty :=
  if ctx.trusts d.source then informative d.type else .error .unresolvedType

def enclosingClassName? (ctx : Context) (ref : NodeRef) : Option ClassName :=
  ((ctx.tree.form? (ctx.tree.enclosingClass? ref)).bind Form.classDeclaration?).map fun c =>
    ClassName.ofText c.1

/-- The class that a name stands for at a node.  `self` is the class around the
node; `static` may be any subclass and `parent` is not known. -/
def resolveClass? (ctx : Context) (ref : NodeRef) (name : String) : Option ClassName :=
  match Text.lowered name with
  | "self" => ctx.enclosingClassName? ref
  | "static" | "parent" => none
  | _ => some (ClassName.ofText name)

/-- `$this` in an instance method is an object of the class around it. -/
def thisType (ctx : Context) (ref : NodeRef) : Except Failure Ty :=
  let method := ctx.tree.enclosingFunction? ref
  match (ctx.tree.form? method).bind Form.function? with
  | some f =>
    if f.kind = .methodDeclaration ∧ !f.isStatic then
      resolved ((ctx.enclosingClassName? method).map Ty.object)
    else .error .unresolvedType
  | none => .error .unresolvedType

/-- The write scan that the type of a node depends on: that of a parameter with
a native type, in the function that declares it. -/
def scanned? (ctx : Context) (ref : NodeRef) : Option (NodeRef × String) :=
  match (ctx.tree.form? ref).bind Form.var? with
  | none => none
  | some name =>
    if name = "this" then none
    else
      match ctx.lookup name ref with
      | .ok (function, winner) =>
        if winner.source = .parameterHint then some (function, name) else none
      | .error _ => none

/-- The type of a variable.  A native parameter type is dropped if the function
may write to the parameter. -/
def variableType (ctx : Context) (ref : NodeRef) (name : String) (written : Bool) :
    Except Failure Ty :=
  if name = "this" then ctx.thisType ref
  else do
    let (_, winner) ← ctx.lookup name ref
    if winner.source = .parameterHint ∧ written then .error .unresolvedType
    else ctx.trustedType winner

def propertyType (ctx : Context) (owner : ClassName) (name : String) : Except Failure Ty := do
  let declaration ← answered (ctx.provider.memberType owner name)
  ctx.trustedType (← resolved declaration)

/-- The type of a call.  Only an enforced return type is trusted. -/
def callType (ctx : Context) (callable : Callable) : Except Failure Ty := do
  let declaration ← answered (ctx.provider.returnType callable)
  let declaration ← resolved declaration
  if declaration.source = .returnHint then informative declaration.type
  else .error .unresolvedType

/-- The type of a form at a node, from what is known of its operands and from
the outcome of the write scan it depends on. -/
def formType (ctx : Context) (ref : NodeRef) (answers : List Inference) (written : Bool) :
    Form → Except Failure Ty
  | .literal .integer text => resolved (IntegerLiteral.type? text)
  | .literal .float _ => .ok .float
  | .literal .string _ | .literal .interpolatedString _ => .ok .string
  | .literal .trueKeyword _ | .literal .falseKeyword _ => .ok .bool
  | .literal .nullKeyword _ => .ok .null
  | .arrayLiteral _ => .ok .array
  | .var name => ctx.variableType ref name written
  | .newExpression className _ => do
    let name ← resolved className
    resolved ((ctx.resolveClass? ref name).map Ty.object)
  | .propertyAccess _ name => do
    let name ← resolved name
    ctx.propertyType (← receiverClass (operand answers 0)) name
  | .staticPropertyAccess className name => do
    ctx.propertyType (← resolved (ctx.resolveClass? ref className)) name
  | .functionCall name _ => do
    ctx.callType (.function (← resolved name))
  | .methodCall _ name _ => do
    let name ← resolved name
    ctx.callType (.method (← receiverClass (operand answers 0)) name)
  | .staticMethodCall className name _ => do
    ctx.callType (.method (← resolved (ctx.resolveClass? ref className)) name)
  | .cast keyword _ _ => resolved (CastKind.ofKeyword keyword).target?
  | .binary _ op _ => resolved (op.result (operand answers 0) (operand answers 1))
  | .unary op _ => resolved (op.result (operand answers 0))
  | .parenthesized _ | .assignment _ _ => resolved (operand answers 0)
  | .sourceFile .. | .function .. | .classDeclaration .. | .returnStatement ..
  | .expressionStatement .. | .other .. => .error .unsupportedKind

def operands (ctx : Context) (ref : NodeRef) : List NodeRef :=
  (ctx.tree.form? ref).elim [] Form.operands

/-- What is known of a node from what is known of its operands. -/
def rule (ctx : Context) (ref : NodeRef) (answers : List Inference) (written : Bool) :
    Inference :=
  match ctx.tree.form? ref with
  | some form => .ofExcept (ctx.formType ref answers written form)
  | none => .unknown

end Context

end RedundantCast
