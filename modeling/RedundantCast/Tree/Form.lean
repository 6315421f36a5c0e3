import RedundantCast.CastKind
import RedundantCast.Operator.Basic
import RedundantCast.Span
import RedundantCast.Tree.Kind

/-!
# Forms of nodes

What a node is made of: the construct with its names and its references to
other nodes.  A reference may be empty (`return;` has no expression) and may
name a node that does not exist.
-/

namespace RedundantCast

abbrev NodeId : Type := Nat

/-- A node, or nothing. -/
abbrev NodeRef : Type := Option NodeId

/-- A function, method, closure or arrow function.  The body of an arrow
function is its one expression. -/
structure FunctionForm where
  kind : FunctionKind
  /-- Closures and arrow functions have no name. -/
  name : Option String
  parameters : List String
  /-- The names that a closure takes over from around it. -/
  captures : List String
  /-- Whether the signature declares a return type that is enforced. -/
  hasNativeReturn : Bool
  isStatic : Bool
  body : List NodeRef
  deriving DecidableEq, Repr, Inhabited

/-- A construct with its parts.  Names of variables have no `$`. -/
inductive Form where
  | sourceFile (name : String) (body : List NodeRef)
  | function (parts : FunctionForm)
  | classDeclaration (name : String) (body : List NodeRef)
  | returnStatement (value : NodeRef)
  | expressionStatement (expr : NodeRef)
  | var (name : String)
  | literal (kind : LiteralKind) (text : String)
  | arrayLiteral (items : List NodeRef)
  /-- Without a class name the class is computed. -/
  | newExpression (className : Option String) (arguments : List NodeRef)
  /-- Without a name the property is computed. -/
  | propertyAccess (receiver : NodeRef) (name : Option String)
  | staticPropertyAccess (className name : String)
  /-- Without a name the callee is computed. -/
  | functionCall (name : Option String) (arguments : List NodeRef)
  | methodCall (receiver : NodeRef) (name : Option String) (arguments : List NodeRef)
  | staticMethodCall (className name : String) (arguments : List NodeRef)
  /-- The token is the parenthesized keyword alone. -/
  | cast (keyword : String) (token : Span) (operand : NodeRef)
  | binary (left : NodeRef) (op : BinaryOperator) (right : NodeRef)
  | unary (op : UnaryOperator) (operand : NodeRef)
  | parenthesized (expr : NodeRef)
  | assignment (target value : NodeRef)
  /-- Any other construct. -/
  | other (items : List NodeRef)
  deriving DecidableEq, Repr, Inhabited

/-- The parts of a property access of either kind. -/
structure Access where
  /-- Empty for a static property. -/
  receiver : NodeRef
  className : Option String
  name : Option String
  deriving DecidableEq, Repr, Inhabited

/-- The parts of a call of any kind. -/
structure Call where
  /-- Empty unless a method is called on an object. -/
  receiver : NodeRef
  className : Option String
  name : Option String
  arguments : List NodeRef
  deriving DecidableEq, Repr, Inhabited

namespace Form

def kind : Form → Kind
  | sourceFile .. => .sourceFile
  | function parts => .function parts.kind
  | classDeclaration .. => .classDeclaration
  | returnStatement .. => .returnStatement
  | expressionStatement .. => .expressionStatement
  | var .. => .var
  | literal kind _ => .literal kind
  | arrayLiteral .. => .arrayLiteral
  | newExpression .. => .newExpression
  | propertyAccess .. => .propertyAccess
  | staticPropertyAccess .. => .staticPropertyAccess
  | functionCall .. => .functionCall
  | methodCall .. => .methodCall
  | staticMethodCall .. => .staticMethodCall
  | cast .. => .castExpression
  | binary .. => .binaryExpression
  | unary .. => .unaryExpression
  | parenthesized .. => .parenthesizedExpression
  | assignment .. => .assignment
  | other .. => .other

/-- The references of a form to its direct parts, in source order. -/
def references : Form → List NodeRef
  | sourceFile _ body => body
  | function parts => parts.body
  | classDeclaration _ body => body
  | returnStatement value => [value]
  | expressionStatement expr => [expr]
  | var _ => []
  | literal _ _ => []
  | arrayLiteral items => items
  | newExpression _ arguments => arguments
  | propertyAccess receiver _ => [receiver]
  | staticPropertyAccess _ _ => []
  | functionCall _ arguments => arguments
  | methodCall receiver _ arguments => receiver :: arguments
  | staticMethodCall _ _ arguments => arguments
  | cast _ _ operand => [operand]
  | binary left _ right => [left, right]
  | unary _ operand => [operand]
  | parenthesized expr => [expr]
  | assignment target value => [target, value]
  | other items => items

/-- The nodes that a form refers to, in source order. -/
def children (f : Form) : List NodeId :=
  f.references.filterMap id

@[simp] theorem mem_children {f : Form} {c : NodeId} : c ∈ f.children ↔ some c ∈ f.references := by
  simp [children]

def opensScope (f : Form) : Bool :=
  f.kind.isScope

/-- The form as it is kept: variable names without `$`, and a cast keyword
without the blanks and parentheses around it. -/
def normalize : Form → Form
  | function parts =>
    function
      { parts with
        parameters := parts.parameters.map Text.stripSigil
        captures := parts.captures.map Text.stripSigil }
  | var name => var (Text.stripSigil name)
  | staticPropertyAccess className name => staticPropertyAccess className (Text.stripSigil name)
  | cast keyword token operand =>
    cast (String.ofList (CastKind.keyword keyword.toList)) token operand
  | f => f

@[simp] theorem kind_normalize (f : Form) : f.normalize.kind = f.kind := by
  cases f <;> simp only [normalize, kind]

@[simp] theorem references_normalize (f : Form) : f.normalize.references = f.references := by
  cases f <;> simp only [normalize, references]

/-! ### Views of single constructs

Each gives the parts of a form if it is that construct, and nothing otherwise.
-/

def sourceFile? : Form → Option (String × List NodeRef)
  | sourceFile name body => some (name, body)
  | _ => none

def function? : Form → Option FunctionForm
  | function parts => some parts
  | _ => none

def classDeclaration? : Form → Option (String × List NodeRef)
  | classDeclaration name body => some (name, body)
  | _ => none

def returned? : Form → Option NodeRef
  | returnStatement value => some value
  | _ => none

def statement? : Form → Option NodeRef
  | expressionStatement expr => some expr
  | _ => none

def var? : Form → Option String
  | var name => some name
  | _ => none

def literalText? : Form → Option String
  | literal _ text => some text
  | _ => none

def arrayItems? : Form → Option (List NodeRef)
  | arrayLiteral items => some items
  | _ => none

def new? : Form → Option (Option String × List NodeRef)
  | newExpression className arguments => some (className, arguments)
  | _ => none

def access? : Form → Option Access
  | propertyAccess receiver name => some ⟨receiver, none, name⟩
  | staticPropertyAccess className name => some ⟨none, some className, some name⟩
  | _ => none

def call? : Form → Option Call
  | functionCall name arguments => some ⟨none, none, name, arguments⟩
  | methodCall receiver name arguments => some ⟨receiver, none, name, arguments⟩
  | staticMethodCall className name arguments => some ⟨none, some className, some name, arguments⟩
  | _ => none

def cast? : Form → Option (String × Span × NodeRef)
  | cast keyword token operand => some (keyword, token, operand)
  | _ => none

def binary? : Form → Option (NodeRef × BinaryOperator × NodeRef)
  | binary left op right => some (left, op, right)
  | _ => none

def unary? : Form → Option (UnaryOperator × NodeRef)
  | unary op operand => some (op, operand)
  | _ => none

def parenthesized? : Form → Option NodeRef
  | parenthesized expr => some expr
  | _ => none

def assignment? : Form → Option (NodeRef × NodeRef)
  | assignment target value => some (target, value)
  | _ => none

def otherItems? : Form → Option (List NodeRef)
  | other items => some items
  | _ => none

end Form

end RedundantCast
