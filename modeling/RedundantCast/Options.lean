import RedundantCast.Diagnostic

/-!
# Options

What the analysis trusts and how findings are shown.
-/

namespace RedundantCast

/-- The depth that inference never exceeds, whatever the options say. -/
def depthCeiling : Nat := 500

structure Options where
  category : Category
  /-- Whether the doc comment of a property counts as its type. -/
  trustPropertyDocs : Bool
  /-- Whether to leave a returned cast alone if the return type of the function
  is only documented: the cast may be what makes it true. -/
  skipDocOnlyReturns : Bool
  maxInferenceDepth : Nat
  deriving DecidableEq, Repr

namespace Options

def default : Options where
  category := .suggestion
  trustPropertyDocs := true
  skipDocOnlyReturns := true
  maxInferenceDepth := depthCeiling

instance : Inhabited Options := ⟨default⟩

def depthLimit (o : Options) : Nat :=
  min o.maxInferenceDepth depthCeiling

end Options

end RedundantCast
