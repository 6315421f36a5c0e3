import RedundantCast.Diagnostic
import RedundantCast.Tree.Form

/-!
# Findings

A redundant cast, and the fix that removes its token.
-/

namespace RedundantCast

/-- Delete a range of the source. -/
structure Fix where
  title : String
  range : Span
  deriving DecidableEq, Repr, Inhabited

structure Finding where
  cast : NodeId
  /-- The whole cast expression. -/
  span : Span
  /-- The cast token alone. -/
  token : Span
  target : CastKind
  operandType : Ty
  message : String
  fix : Fix
  deriving Repr, Inhabited

/-- The finding about a cast whose operand has the given type. -/
def Finding.ofCast (cast : NodeId) (span : Span) (keyword : String) (token : Span)
    (operandType : Ty) : Finding where
  cast := cast
  span := span
  token := token
  target := CastKind.ofKeyword keyword
  operandType := operandType
  message := MessageEntry.unnecessaryCast.template
  fix :=
    { title := Text.fill MessageEntry.removeCast.template [keyword]
      range := token }

end RedundantCast
