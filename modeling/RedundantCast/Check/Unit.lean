import RedundantCast.Check.Analysis
import RedundantCast.Check.Sink
import RedundantCast.Tree.Walk

/-!
# Checking a unit

A unit is a node and everything below it.  Its casts are analyzed in document
order with one memory, and every finding is reported once.
-/

namespace RedundantCast

namespace Context

/-- The findings about some nodes in order, with the memory they leave. -/
def analyzeEach (ctx : Context) : List NodeId → Memory → List Finding × Memory
  | [], m => ([], m)
  | id :: ids, m =>
    let (finding, m) := ctx.analyze (some id) m
    let (findings, m) := ctx.analyzeEach ids m
    (finding.toList ++ findings, m)

def findings (ctx : Context) (root : NodeRef) (m : Memory) : List Finding × Memory :=
  ctx.analyzeEach (ctx.tree.casts root) m

def checkUnit {σ : Type} (ctx : Context) (sink : Sink σ) (root : NodeRef) (m : Memory)
    (collected : σ) : List Finding × Memory × σ :=
  let (findings, m) := ctx.findings root m
  (findings, m, sink.reportAll findings collected)

end Context

/-- What a check of one unit found. -/
structure Report where
  file : String
  findings : List Finding
  diagnostics : List Diagnostic
  deriving Repr, Inhabited

namespace Report

/-- The report about a unit that is checked with an empty memory.  The file of a
unit outside any file is the empty name. -/
def ofUnit (ctx : Context) (root : NodeRef) : Report :=
  let file := (ctx.tree.fileName? root).getD ""
  let sink := Sink.diagnostics file ctx.options.category
  let (findings, _, diagnostics) := ctx.checkUnit sink root .empty []
  ⟨file, findings, diagnostics⟩

/-- The reports about independent units, in their order. -/
def ofUnits (ctx : Context) (roots : List NodeRef) : List Report :=
  roots.map (ofUnit ctx)

end Report

/-- The diagnostics of one file in document order. -/
def checkFile (ctx : Context) (root : NodeRef) : List Diagnostic :=
  (Report.ofUnit ctx root).diagnostics

end RedundantCast
