import RedundantCast.Declaration.Provider
import RedundantCast.Options

/-!
# Inferred types

What inference says about an expression: its exact type, or that nothing
trustworthy is known; and why nothing is known.
-/

namespace RedundantCast

/-- The surroundings of an analysis, which it only reads. -/
structure Context where
  tree : Tree
  provider : Provider
  options : Options

/-- What is known of the type of an expression. -/
inductive Inference where
  | certain (type : Ty)
  | unknown
  deriving Repr, Inhabited

/-- Why nothing is known of a type. -/
inductive Failure where
  /-- No declaration, one that is not trusted, or an operand without a rule. -/
  | unresolvedType
  | unsupportedKind
  | providerUnavailable
  | depthExceeded
  deriving DecidableEq, Repr, Inhabited

def Failure.text : Failure → String
  | unresolvedType => "unresolved type"
  | unsupportedKind => "unsupported node kind"
  | providerUnavailable => "provider unavailable"
  | depthExceeded => "depth exceeded"

namespace Inference

/-- The inference of a type; `mixed` says nothing. -/
def ofTy (t : Ty) : Inference :=
  if t.isMixed then unknown else certain t

/-- The inference of a rule's answer. -/
def ofExcept : Except Failure Ty → Inference
  | .ok t => ofTy t
  | .error _ => unknown

def type? : Inference → Option Ty
  | certain t => some t
  | unknown => none

@[simp] theorem type?_certain (t : Ty) : (certain t).type? = some t := rfl

@[simp] theorem type?_unknown : unknown.type? = none := rfl

@[simp] theorem ofTy_mixed : ofTy .mixed = unknown := rfl

theorem ofTy_of_not_isMixed {t : Ty} (h : t.isMixed = false) : ofTy t = certain t := by
  simp [ofTy, h]

end Inference

end RedundantCast
