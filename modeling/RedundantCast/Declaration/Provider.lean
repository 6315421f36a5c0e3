import RedundantCast.Declaration.Basic
import RedundantCast.Ty.Subtype
import RedundantCast.Tree.Basic

/-!
# Declaration providers

A provider answers questions about declarations.  It may fail to answer, which
is not the same as knowing of no declaration.
-/

namespace RedundantCast

inductive ProviderError where
  /-- The provider cannot answer now. -/
  | unavailable
  | failed (message : String)
  deriving DecidableEq, Repr, Inhabited

def ProviderError.text : ProviderError → String
  | unavailable => "context provider unavailable"
  | failed message => "context provider failed: " ++ message

structure Provider where
  /-- The declarations of a variable in a scope, in order of declaration. -/
  variableTypes : ScopeId → String → Except ProviderError (List Declaration)
  returnType : Callable → Except ProviderError (Option Declaration)
  /-- The declared type of a property of a class or its ancestors. -/
  memberType : ClassName → String → Except ProviderError (Option Declaration)
  hierarchy : Hierarchy

namespace Provider

/-- A provider that knows of no declaration. -/
def empty : Provider where
  variableTypes _ _ := .ok []
  returnType _ := .ok none
  memberType _ _ := .ok none
  hierarchy := Hierarchy.empty

inductive Query where
  | variableTypes
  | returnTypes
  | memberTypes
  | classes
  deriving DecidableEq, Repr, Inhabited

/-- The provider with the questions in `queries` answered by an error; a class
question answered by an error counts as unrelated classes. -/
def failing (p : Provider) (queries : List Query) (error : ProviderError) : Provider where
  variableTypes scope name :=
    if .variableTypes ∈ queries then .error error else p.variableTypes scope name
  returnType callable :=
    if .returnTypes ∈ queries then .error error else p.returnType callable
  memberType owner name :=
    if .memberTypes ∈ queries then .error error else p.memberType owner name
  hierarchy :=
    if .classes ∈ queries then Hierarchy.empty else p.hierarchy

end Provider

end RedundantCast
