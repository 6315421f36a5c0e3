/-!
# Kinds of nodes

What construct a node of a syntax tree is.
-/

namespace RedundantCast

/-- The constructs that open a variable scope inside a file. -/
inductive FunctionKind where
  | functionDeclaration
  | methodDeclaration
  | closure
  | arrowFunction
  deriving DecidableEq, Repr, Inhabited

inductive LiteralKind where
  | integer
  | float
  | string
  | interpolatedString
  | trueKeyword
  | falseKeyword
  | nullKeyword
  deriving DecidableEq, Repr, Inhabited

inductive Kind where
  | sourceFile
  | function (kind : FunctionKind)
  | classDeclaration
  | returnStatement
  | expressionStatement
  | var
  | literal (kind : LiteralKind)
  | arrayLiteral
  | newExpression
  | propertyAccess
  | staticPropertyAccess
  | functionCall
  | methodCall
  | staticMethodCall
  | castExpression
  | binaryExpression
  | unaryExpression
  | parenthesizedExpression
  | assignment
  /-- A construct without a rule of its own, whose children are walked. -/
  | other
  deriving DecidableEq, Repr, Inhabited

namespace Kind

def isFunctionLike : Kind → Bool
  | function _ => true
  | _ => false

def isScope : Kind → Bool
  | sourceFile | function _ => true
  | _ => false

def isLiteral : Kind → Bool
  | literal _ => true
  | _ => false

def names : List (Kind × String) :=
  [(sourceFile, "SourceFile"), (function .functionDeclaration, "FunctionDeclaration"),
    (function .methodDeclaration, "MethodDeclaration"), (function .closure, "Closure"),
    (function .arrowFunction, "ArrowFunction"), (classDeclaration, "ClassDeclaration"),
    (returnStatement, "ReturnStatement"), (expressionStatement, "ExpressionStatement"),
    (var, "Variable"), (literal .integer, "IntegerLiteral"),
    (literal .float, "FloatLiteral"), (literal .string, "StringLiteral"),
    (literal .interpolatedString, "InterpolatedString"), (literal .trueKeyword, "TrueKeyword"),
    (literal .falseKeyword, "FalseKeyword"), (literal .nullKeyword, "NullKeyword"),
    (arrayLiteral, "ArrayLiteral"), (newExpression, "NewExpression"),
    (propertyAccess, "PropertyAccess"), (staticPropertyAccess, "StaticPropertyAccess"),
    (functionCall, "FunctionCall"), (methodCall, "MethodCall"),
    (staticMethodCall, "StaticMethodCall"), (castExpression, "CastExpression"),
    (binaryExpression, "BinaryExpression"), (unaryExpression, "UnaryExpression"),
    (parenthesizedExpression, "ParenthesizedExpression"), (assignment, "Assignment"),
    (other, "Other")]

def name (k : Kind) : String :=
  (names.lookup k).getD ""

def ofName? (text : String) : Option Kind :=
  (names.find? (·.2 == text)).map (·.1)

end Kind

end RedundantCast
