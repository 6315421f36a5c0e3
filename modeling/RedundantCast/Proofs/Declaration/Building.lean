import RedundantCast.Declaration.Table

/-!
# Building a table

A table is filled by a sequence of declarations. What it says about a variable
in a scope is exactly what was declared under that name there, in order.
-/

namespace RedundantCast

namespace Table

/-- One declaration that is added to a table. -/
inductive Fact where
  | var (scope : ScopeId) (name : String) (type : Ty) (source : Source)
  | function (name : String) (type : Ty) (source : Source)
  | method (owner : ClassName) (name : String) (type : Ty) (source : Source)
  | property (owner : ClassName) (name : String) (type : Ty) (source : Source)
  | parent (child parent : ClassName)

def declare (t : Table) : Fact → Table
  | .var scope name type source => t.declareVariable scope name type source
  | .function name type source => t.declareFunction name type source
  | .method owner name type source => t.declareMethod owner name type source
  | .property owner name type source => t.declareProperty owner name type source
  | .parent child parent => t.declareParent child parent

def declareAll (t : Table) (facts : List Fact) : Table :=
  facts.foldl declare t

/-- The table of some declarations, made in order. -/
def ofFacts (facts : List Fact) : Table :=
  empty.declareAll facts

end Table

end RedundantCast
