import RedundantCast.Proofs.Check.Isolation
import RedundantCast.Proofs.Tree.Layout

/-!
# Findings in source order

The report about a laid-out unit marks the tokens of its redundant casts in the
order of the source. No two of them overlap, so all fixes can be applied in one
pass over the text.
-/

namespace RedundantCast

/-- A finding repeats what the tree holds of its cast, which has an operand. -/
structure Finding.FaithfulTo (t : Tree) (f : Finding) : Prop where
  form : ∃ keyword operand, t.form? (some f.cast) = some (.cast keyword f.token (some operand))
  span : t.span? (some f.cast) = some f.span
  fix : f.fix.range = f.token

theorem Finding.FaithfulTo.castToken? {t : Tree} {f : Finding} (hf : f.FaithfulTo t) :
    t.castToken? f.cast = some f.token := by
  obtain ⟨keyword, operand, hform⟩ := hf.form
  exact Tree.castToken?_eq_some_iff.2 ⟨keyword, some operand, hform⟩

/-- A finding of a laid-out tree covers the token and the operand of its cast. -/
theorem Finding.FaithfulTo.encloses {t : Tree} {f : Finding} (hf : f.FaithfulTo t)
    (ht : t.WellFormed) (hl : t.LaidOut) :
    f.span.encloses f.token ∧
      ∃ keyword operand s, t.form? (some f.cast) = some (.cast keyword f.token (some operand)) ∧
        t.span? (some operand) = some s ∧ f.span.encloses s := by
  obtain ⟨keyword, operand, hform⟩ := hf.form
  have hat : t.spanAt f.cast = f.span := by rw [Tree.spanAt, hf.span, Option.getD_some]
  have hchild : operand ∈ t.children (some f.cast) := by
    simp [Tree.children, hform, Form.references]
  have hlt : operand < t.size :=
    Nat.lt_trans (ht.lt_of_mem_children hchild) (Tree.lt_size_of_mem_children hchild)
  obtain ⟨node, hnode⟩ := Option.isSome_iff_exists.1 (Tree.isSome_node?.2 hlt)
  have hs : t.span? (some operand) = some node.span := by rw [Tree.span?, hnode, Option.map_some]
  refine ⟨?_, keyword, operand, node.span, hform, hs, ?_⟩
  · rw [← hat]
    exact ht.encloses_token hf.castToken?
  · have hnested := (hl.laidOutAt f.cast).nested operand hchild
    rwa [hat, Tree.spanAt, hs, Option.getD_some] at hnested

namespace Context

variable {ctx : Context} {root : NodeRef} {f : Finding}

theorem inferFresh_none (ctx : Context) (depth : Nat) : ctx.inferFresh depth none = .unknown := by
  cases depth with
  | zero => rfl
  | succ depth => rw [inferFresh, ctx.rule_none]

theorem faithfulTo_of_findingBy {depth : Nat} {id : NodeId}
    (h : ctx.findingBy (ctx.inferFresh depth) (some id) = some f) : f.FaithfulTo ctx.tree := by
  obtain ⟨q, hq, hanswer⟩ := Option.bind_eq_some_iff.1 h
  obtain ⟨node, hid, hnode, hspan, hform, -⟩ := exists_node_of_question? hq
  obtain ⟨type, hknown, rfl⟩ := exists_type_of_answer hanswer
  rw [hid] at hnode
  refine ⟨?_, (congrArg (Option.map Node.span) hnode).trans (congrArg some hspan), rfl⟩
  cases hoperand : q.operand with
  | none =>
      rw [hoperand, inferFresh_none] at hknown
      cases hknown
  | some operand =>
      rw [hoperand] at hform
      exact ⟨q.keyword, operand,
        (congrArg (Option.map Node.form) hnode).trans (congrArg some hform)⟩

theorem faithfulTo_of_mem_findings (ht : ctx.tree.WellFormed)
    (hf : f ∈ (ctx.findings root .empty).1) : f.FaithfulTo ctx.tree := by
  rw [findings_empty ht] at hf
  obtain ⟨id, -, hfinding⟩ := List.mem_filterMap.1 hf
  exact faithfulTo_of_findingBy hfinding

theorem pairwise_findings (ht : ctx.tree.WellFormed) (hl : ctx.tree.LaidOut) (root : NodeRef) :
    (ctx.findings root .empty).1.Pairwise fun f g => f.token.stop ≤ g.token.start := by
  have htoken : ∀ {id : NodeId} {f : Finding},
      ctx.findingBy (ctx.inferFresh ctx.options.depthLimit) (some id) = some f →
      ctx.tree.castToken? id = some f.token := by
    intro id f hf
    rw [← cast_of_findingBy hf]
    exact (faithfulTo_of_findingBy hf).castToken?
  rw [findings_empty ht, List.pairwise_filterMap]
  apply (hl.pairwise_casts ht root).imp
  intro x y hxy f hf g hg
  exact hxy f.token (htoken hf) g.token (htoken hg)

end Context

/-! ## Diagnostics -/

/-- The diagnostic that a finding is shown as. -/
def Finding.diagnostic (file : String) (category : Category) (f : Finding) : Diagnostic :=
  .ofSpan file f.token f.message category MessageEntry.unnecessaryCast.code

theorem Finding.span_diagnostic {f : Finding} (hf : f.token.start ≤ f.token.stop) (file : String)
    (category : Category) : (f.diagnostic file category).span = f.token := by
  simp [diagnostic, Diagnostic.span, Diagnostic.ofSpan, Span.length, Nat.add_sub_cancel' hf]

theorem Sink.reportAll_diagnostics (file : String) (category : Category) (findings : List Finding)
    (collected : List Diagnostic) :
    (Sink.diagnostics file category).reportAll findings collected =
      collected ++ findings.map (Finding.diagnostic file category) := by
  induction findings generalizing collected with
  | nil => simp
  | cons f fs ih =>
      rw [reportAll_cons, ih, List.map_cons, List.append_cons]
      rfl

namespace Report

theorem diagnostics_ofUnit (ctx : Context) (root : NodeRef) :
    (ofUnit ctx root).diagnostics =
      (ofUnit ctx root).findings.map
        (Finding.diagnostic (ofUnit ctx root).file ctx.options.category) :=
  Sink.reportAll_diagnostics _ _ _ []

/-- The diagnostics of a laid-out unit are its findings one by one, each at the
token that its fix removes. A finding covers the token and the operand of its
cast, and every diagnostic ends before the next ones start. -/
theorem diagnostics_in_source_order (ctx : Context) (ht : ctx.tree.WellFormed)
    (hl : ctx.tree.LaidOut) (root : NodeRef) :
    let report := ofUnit ctx root
    List.Forall₂ (fun d f => d.span = f.fix.range ∧ d.text = f.message ∧
        ctx.tree.castToken? f.cast = some f.fix.range) report.diagnostics report.findings ∧
      (∀ f ∈ report.findings, f.span.encloses f.token ∧
        ∃ keyword operand s,
          ctx.tree.form? (some f.cast) = some (.cast keyword f.token (some operand)) ∧
            ctx.tree.span? (some operand) = some s ∧ f.span.encloses s) ∧
      report.diagnostics.Pairwise fun d e => d.span.stop ≤ e.span.start := by
  intro report
  have hfaithful : ∀ f ∈ report.findings, f.FaithfulTo ctx.tree :=
    fun f hf => Context.faithfulTo_of_mem_findings ht hf
  have hspan : ∀ f ∈ report.findings,
      (f.diagnostic report.file ctx.options.category).span = f.token := by
    intro f hf
    have htoken := (hfaithful f hf).castToken?
    exact f.span_diagnostic ((hl.laidOutAt f.cast).token_proper _ htoken) _ _
  have hdiagnostics : report.diagnostics = _ := diagnostics_ofUnit ctx root
  rw [hdiagnostics]
  refine ⟨?_, fun f hf => (hfaithful f hf).encloses ht hl, ?_⟩
  · rw [List.forall₂_map_left_iff, List.forall₂_same]
    intro f hf
    rw [(hfaithful f hf).fix]
    exact ⟨hspan f hf, rfl, (hfaithful f hf).castToken?⟩
  · rw [List.pairwise_map]
    apply (Context.pairwise_findings ht hl root).imp_of_mem
    intro f g hf hg hfg
    rwa [hspan f hf, hspan g hg]

/-- The nodes of `[(string) ("a" . (int) 2), (int) (int) 3]`. -/
def castsInArray : List (Form × Span) :=
  [(.literal .string "a", ⟨11, 14⟩), (.literal .integer "2", ⟨23, 24⟩),
    (.cast "int" ⟨17, 22⟩ (some 1), .dummy), (.binary (some 0) .concat (some 2), ⟨11, 24⟩),
    (.parenthesized (some 3), ⟨10, 25⟩), (.cast "string" ⟨1, 9⟩ (some 4), .dummy),
    (.literal .integer "3", ⟨39, 40⟩), (.cast "int" ⟨33, 38⟩ (some 6), .dummy),
    (.cast "int" ⟨27, 32⟩ (some 7), .dummy), (.arrayLiteral [some 5, some 8], ⟨0, 41⟩)]

/-- All four casts are redundant, and the nested ones are reported between the
casts around them and what follows. -/
theorem diagnostics_castsInArray :
    let ctx : Context := ⟨.ofForms castsInArray, .empty, .default⟩
    let report := ofUnit ctx (some 9)
    ctx.tree.WellFormed ∧ ctx.tree.LaidOut ∧
      report.diagnostics.map Diagnostic.span = [⟨1, 9⟩, ⟨17, 22⟩, ⟨27, 32⟩, ⟨33, 38⟩] ∧
      report.diagnostics.Pairwise fun d e => d.span.stop ≤ e.span.start := by
  intro ctx report
  have ht : ctx.tree.WellFormed := Tree.wellFormed_ofForms (by decide)
  have hl : ctx.tree.LaidOut := by decide
  obtain ⟨-, -, hordered⟩ := diagnostics_in_source_order ctx ht hl (some 9)
  exact ⟨ht, hl, by decide, hordered⟩

end Report

end RedundantCast
