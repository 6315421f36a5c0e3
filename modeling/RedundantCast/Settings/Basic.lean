import RedundantCast.Options

/-!
# Settings

What a settings file says.  Everything may be left out: it is then taken from
the file that this one is based on, and at last from the defaults.
-/

namespace RedundantCast

/-- The options that a settings file sets. -/
structure Inspection where
  category : Option Category
  trustPropertyDocs : Option Bool
  skipDocOnlyReturns : Option Bool
  maxInferenceDepth : Option Nat
  deriving DecidableEq, Repr, Inhabited

structure Config where
  /-- The file it is based on, relative to the directory of this one. -/
  base : Option String
  inspection : Option Inspection
  deriving DecidableEq, Repr, Inhabited

namespace Inspection

def empty : Inspection := ⟨none, none, none, none⟩

/-- Every option from `i`, or from `base` where `i` does not set it. -/
def orElse (i base : Inspection) : Inspection where
  category := i.category <|> base.category
  trustPropertyDocs := i.trustPropertyDocs <|> base.trustPropertyDocs
  skipDocOnlyReturns := i.skipDocOnlyReturns <|> base.skipDocOnlyReturns
  maxInferenceDepth := i.maxInferenceDepth <|> base.maxInferenceDepth

end Inspection

inductive OptionsError where
  | zeroDepth
  deriving DecidableEq, Repr, Inhabited

def OptionsError.text : OptionsError → String
  | zeroDepth => "maxInferenceDepth must be at least 1"

namespace Config

def empty : Config := ⟨none, none⟩

/-- The settings of a file on top of those it is based on. -/
def basedOn (c base : Config) : Config where
  base := none
  inspection :=
    match c.inspection, base.inspection with
    | some i, some b => some (i.orElse b)
    | i, b => i <|> b

/-- The options that settings amount to. -/
def options (c : Config) : Except OptionsError Options :=
  let i := c.inspection.getD .empty
  if i.maxInferenceDepth = some 0 then .error .zeroDepth
  else
    .ok
      { category := i.category.getD Options.default.category
        trustPropertyDocs := i.trustPropertyDocs.getD Options.default.trustPropertyDocs
        skipDocOnlyReturns := i.skipDocOnlyReturns.getD Options.default.skipDocOnlyReturns
        maxInferenceDepth := i.maxInferenceDepth.getD Options.default.maxInferenceDepth }

@[simp] theorem options_empty : empty.options = .ok .default := rfl

end Config

end RedundantCast
