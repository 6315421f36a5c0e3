import RedundantCast.Check.Finding

/-!
# Sinks

Where findings are reported to.  A log takes the whole cast and the message,
diagnostics mark the cast token alone.
-/

namespace RedundantCast

/-- How reports are added to what has been collected. -/
structure Sink (σ : Type) where
  report : Span → String → σ → σ
  reportFinding : Finding → σ → σ := fun f => report f.span f.message

namespace Sink

/-- Keeps spans and messages. -/
def log : Sink (List (Span × String)) where
  report span message reports := reports ++ [(span, message)]

/-- Turns reports into diagnostics of one file. -/
def diagnostics (file : String) (category : Category) : Sink (List Diagnostic) :=
  let report (span : Span) (message : String) (reports : List Diagnostic) :=
    reports ++ [.ofSpan file span message category MessageEntry.unnecessaryCast.code]
  { report := report
    reportFinding := fun f => report f.token f.message }

def reportAll {σ : Type} (sink : Sink σ) (findings : List Finding) (collected : σ) : σ :=
  findings.foldl (fun collected f => sink.reportFinding f collected) collected

@[simp] theorem reportAll_nil {σ : Type} (sink : Sink σ) (collected : σ) :
    sink.reportAll [] collected = collected := rfl

@[simp] theorem reportAll_cons {σ : Type} (sink : Sink σ) (f : Finding) (fs : List Finding)
    (collected : σ) :
    sink.reportAll (f :: fs) collected = sink.reportAll fs (sink.reportFinding f collected) := rfl

end Sink

end RedundantCast
