import RedundantCast.Ty.Basic

/-!
# Declarations

Declared types of variables, properties and callables, each with the place it
was declared in, which decides how far it is trusted.
-/

namespace RedundantCast

/-- Where a declared type comes from. -/
inductive Source where
  /-- A native parameter type. -/
  | parameterHint
  /-- A native return type. -/
  | returnHint
  /-- A native property type. -/
  | propertyHint
  /-- A doc comment on a property. -/
  | propertyDocHint
  /-- A doc comment on a local variable. -/
  | localDocHint
  /-- A parameter in the doc comment of a function. -/
  | parameterDocHint
  /-- The return type in the doc comment of a function. -/
  | returnDocHint
  /-- Worked out by the provider, for instance from an assigned value. -/
  | inferred
  deriving DecidableEq, Repr, Inhabited

namespace Source

/-- Whether the running program enforces the type. -/
def isEnforced : Source → Bool
  | parameterHint | returnHint | propertyHint => true
  | _ => false

/-- Which declaration of a variable wins; the highest does. -/
def precedence : Source → Nat
  | localDocHint => 3
  | parameterHint => 2
  | inferred => 1
  | _ => 0

end Source

structure Declaration where
  name : String
  type : Ty
  source : Source
  deriving Repr, Inhabited

namespace Declaration

/-- The later of two declarations, if its source takes precedence. -/
def prefer (best candidate : Declaration) : Declaration :=
  if best.source.precedence < candidate.source.precedence then candidate else best

/-- The declaration of highest precedence, of several such the first. -/
def winner? : List Declaration → Option Declaration
  | [] => none
  | d :: ds => some (ds.foldl prefer d)

@[simp] theorem winner?_nil : winner? [] = none := rfl

@[simp] theorem winner?_cons (d : Declaration) (ds : List Declaration) :
    winner? (d :: ds) = some (ds.foldl prefer d) := rfl

end Declaration

/-- A function or method whose return type can be asked for. -/
inductive Callable where
  | function (name : String)
  | method (owner : ClassName) (name : String)
  deriving Repr, Inhabited

def Callable.text : Callable → String
  | function name => name ++ "()"
  | method owner name => owner.text ++ "::" ++ name ++ "()"

end RedundantCast
